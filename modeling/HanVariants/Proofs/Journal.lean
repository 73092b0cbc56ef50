import HanVariants.Builder
import HanVariants.Markup.Conversion
import HanVariants.Proofs.OrderedMap
/-!
# What is kept when timing is shown

Settings give levels to the main channel and to the timing channel only, so how a channel hangs in the
tree depends on its name alone (`lineage_setAll`). After timing is shown, an entry is kept from `debug`
on at the timing channel and below it, and from `info` on everywhere else (`keeps_timed_iff`).

The timed operations of the library do not tell their time on the timing channel, but each on a channel
of its own. So showing timing keeps none of their times (`kept_timed`).
-/

namespace HanVariants

namespace Journal

/-- The channels that exist from the start. -/
def isInitial (name : Text) : Bool := name = mainChannel || name = timingChannel

/-! ## Lineages -/

theorem lineage_eq (exists? : Text → Bool) (name : Text) :
    lineage exists? name = name :: match (namesAbove name).find? exists? with
      | none => []
      | some above => lineage exists? above := by
  rw [lineage]
  split
  · next h => rw [h]
  · next h => rw [h]

theorem lineage_mainChannel : lineage isInitial mainChannel = [mainChannel] := by decide +kernel

theorem lineage_timingChannel : lineage isInitial timingChannel = [timingChannel, mainChannel] := by
  decide +kernel

/-- Above a channel there is the main channel or nothing, and before it the timing channel at most. -/
theorem lineage_cases (name : Text) :
    lineage isInitial name = [name] ∨ lineage isInitial name = [name, mainChannel] ∨
      lineage isInitial name = [name, timingChannel, mainChannel] := by
  rw [lineage_eq]
  cases habove : (namesAbove name).find? isInitial with
  | none => exact .inl rfl
  | some above =>
    have hinitial : above = mainChannel ∨ above = timingChannel := by
      simpa [isInitial] using List.find?_some habove
    rcases hinitial with rfl | rfl
    · exact .inr (.inl (congrArg (name :: ·) lineage_mainChannel))
    · exact .inr (.inr (congrArg (name :: ·) lineage_timingChannel))

/-! ## Settings -/

namespace Channels

section

variable {cs : Channels}

/-- A setting gives levels to channels that are there from the start. -/
theorem isSome_get?_levels_set (h : ∀ name, (cs.levels.get? name).isSome = isInitial name) (s : Setting)
    (name : Text) : ((cs.set s).levels.get? name).isSome = isInitial name := by
  have hinsert : ∀ (m : OrderedMap Text Level) (k : Text) (level : Level), isInitial k →
      (∀ name, (m.get? name).isSome = isInitial name) →
      ∀ name, ((m.insert k level).get? name).isSome = isInitial name := by
    intro m k level hk hm name
    rw [OrderedMap.get?_insert]
    split
    · next he => rw [he, hk]; rfl
    · exact hm name
  have hsetUp : ∀ level name, ((cs.setUp level).levels.get? name).isSome = isInitial name := fun level =>
    hinsert cs.levels mainChannel level (by decide) h
  cases s with
  | setUp level => exact hsetUp level name
  | showDebug => exact hsetUp debug name
  | showTiming => exact hinsert _ timingChannel debug (by decide) (hsetUp info) name
  | configure verbose =>
    cases verbose with
    | true => exact hsetUp debug name
    | false => exact h name

/-- The channels that have a level, after any settings. -/
theorem isSome_get?_levels_setAll (settings : List Setting) (name : Text) :
    ((({} : Channels).setAll settings).levels.get? name).isSome = isInitial name := by
  have hrun : ∀ (settings : List Setting) (cs : Channels),
      (∀ name, (cs.levels.get? name).isSome = isInitial name) →
      ∀ name, ((cs.setAll settings).levels.get? name).isSome = isInitial name := by
    intro settings
    induction settings with
    | nil => exact fun cs h => h
    | cons s settings ih => exact fun cs h => ih (cs.set s) (isSome_get?_levels_set h s)
  refine hrun settings {} (fun name => ?_) name
  rw [Bool.eq_iff_iff, OrderedMap.isSome_get?_ofList]
  simp [isInitial]

end

theorem lineage_setAll (settings : List Setting) (name : Text) :
    (({} : Channels).setAll settings).lineage name = Journal.lineage isInitial name :=
  congrArg (Journal.lineage · name) (funext (isSome_get?_levels_setAll settings))

/-! ## After timing is shown -/

/-- The channels after settings of which the last shows timing. -/
def timed (settings : List Setting) : Channels := ({} : Channels).setAll (settings ++ [.showTiming])

variable (settings : List Setting)

theorem lineage_timed (name : Text) : (timed settings).lineage name = Journal.lineage isInitial name :=
  lineage_setAll _ name

theorem timed_eq : timed settings = (({} : Channels).setAll settings).showTiming := by
  rw [timed, setAll, List.foldl_append]
  rfl

theorem ownLevel_timed_timingChannel : (timed settings).ownLevel timingChannel = debug := by
  simp [timed_eq, ownLevel, showTiming, OrderedMap.get?_insert]

theorem ownLevel_timed_mainChannel : (timed settings).ownLevel mainChannel = info := by
  have hne : mainChannel ≠ timingChannel := by decide
  simp [timed_eq, ownLevel, showTiming, setUp, OrderedMap.get?_insert, hne]

theorem ownLevel_timed_of_not_isInitial {name : Text} (h : isInitial name = false) :
    (timed settings).ownLevel name = 0 := by
  have hnone := isSome_get?_levels_setAll (settings ++ [.showTiming]) name
  rw [h, Option.isSome_eq_false_iff, Option.isNone_iff_eq_none] at hnone
  rw [ownLevel, timed, hnone]
  rfl

theorem effectiveLevel_timed {name : Text} (h : mainChannel ∈ Journal.lineage isInitial name) :
    (timed settings).effectiveLevel name =
      if timingChannel ∈ Journal.lineage isInitial name then debug else info := by
  have hdebug : debug ≠ 0 := by decide
  have hinfo : info ≠ 0 := by decide
  have hchannels : timingChannel ≠ mainChannel := by decide
  rw [effectiveLevel, lineage_timed]
  by_cases hi : isInitial name
  · have hname : name = mainChannel ∨ name = timingChannel := by simpa [isInitial] using hi
    rcases hname with rfl | rfl
    · simp [lineage_mainChannel, ownLevel_timed_mainChannel, hinfo, hchannels]
    · simp [lineage_timingChannel, ownLevel_timed_timingChannel, hdebug]
  · rw [Bool.not_eq_true] at hi
    have hown := ownLevel_timed_of_not_isInitial settings hi
    have hname : timingChannel ≠ name := by
      rintro rfl
      exact absurd hi (by decide)
    rcases lineage_cases name with hl | hl | hl <;> rw [hl] at h ⊢
    · rw [← List.mem_singleton.1 h] at hi
      exact absurd hi (by decide)
    · simp [hown, ownLevel_timed_mainChannel, hinfo, hname, hchannels]
    · simp [hown, ownLevel_timed_timingChannel, hdebug]

theorem keeps_timed_iff (e : Entry) :
    (timed settings).keeps e ↔ mainChannel ∈ Journal.lineage isInitial e.channel ∧
      (if timingChannel ∈ Journal.lineage isInitial e.channel then debug else info) ≤ e.level := by
  have hpos : 0 < if timingChannel ∈ Journal.lineage isInitial e.channel then debug else info := by
    split <;> decide
  simp only [keeps, Bool.and_eq_true, decide_eq_true_eq, List.contains_iff_mem, lineage_timed]
  constructor
  · rintro ⟨⟨-, hlevel⟩, hmain⟩
    exact ⟨hmain, effectiveLevel_timed settings hmain ▸ hlevel⟩
  · rintro ⟨hmain, hlevel⟩
    exact ⟨⟨Int.lt_of_lt_of_le hpos hlevel, effectiveLevel_timed settings hmain ▸ hlevel⟩, hmain⟩

/-- Right below the main channel entries are kept from `info` on. -/
theorem keeps_timed_of_below_main {e : Entry}
    (hlineage : Journal.lineage isInitial e.channel = [e.channel, mainChannel])
    (hne : timingChannel ≠ e.channel) : (timed settings).keeps e ↔ info ≤ e.level := by
  have hchannels : timingChannel ≠ mainChannel := by decide
  rw [keeps_timed_iff, hlineage]
  simp [hne, hchannels]

/-! ## Timed operations -/

theorem keeps_timed_builder {e : Entry} (h : e.channel = Builder.channel) :
    (timed settings).keeps e ↔ info ≤ e.level := by
  apply keeps_timed_of_below_main <;> rw [h] <;> decide +kernel

theorem keeps_timed_conversion {e : Entry} (h : e.channel = Markup.Conversion.channel) :
    (timed settings).keeps e ↔ info ≤ e.level := by
  apply keeps_timed_of_below_main <;> rw [h] <;> decide +kernel

/-- All that building tells is for debugging. -/
theorem kept_build (b : Builder) : (timed settings).kept b.build.journal = [] := by
  refine List.filter_eq_nil_iff.2 fun e he => ?_
  have hentry : e.channel = Builder.channel ∧ e.level = debug := by
    rcases List.mem_append.1 he with he | he
    · obtain ⟨c, -, rfl⟩ : ∃ c, b.converter.toOption = some c ∧ Builder.note (b.summary c) = e := by
        simpa using he
      exact ⟨rfl, rfl⟩
    · rw [List.mem_singleton.1 he]
      exact ⟨rfl, rfl⟩
  rw [keeps_timed_builder settings hentry.1, hentry.2]
  decide

end Channels

/-- What is noted of a listener that fails. -/
def failure : Entry := ⟨Markup.Conversion.channel, error, .text "on_event 回呼執行失敗".toList⟩

namespace Channels

variable (settings : List Setting)

/-- No entry for debugging is kept of a conversion, whatever it tells. -/
theorem not_keeps_debug (message : Message) :
    ¬(timed settings).keeps ⟨Markup.Conversion.channel, debug, message⟩ := fun h =>
  absurd ((keeps_timed_conversion settings rfl).1 h) (show ¬info ≤ debug by decide)

theorem kept_entries (accepts : Markup.Notice → Bool) (n : Markup.Notice) :
    (timed settings).kept (Markup.Conversion.entries accepts n) =
      if accepts n then [] else [failure] := by
  have hfailure : (timed settings).keeps failure :=
    (keeps_timed_conversion settings rfl).2 (show info ≤ error by decide)
  have hentries : Markup.Conversion.entries accepts n =
      ((Markup.Conversion.note? n).map fun t => ⟨Markup.Conversion.channel, debug, .text t⟩).toList ++
        if accepts n then [] else [failure] := rfl
  rw [kept, hentries, List.filter_append]
  cases Markup.Conversion.note? n <;> cases accepts n <;> simp [not_keeps_debug, hfailure]

theorem kept_flatMap_entries (accepts : Markup.Notice → Bool) (ns : List Markup.Notice) :
    (timed settings).kept (ns.flatMap (Markup.Conversion.entries accepts)) =
      (ns.filter fun n => !accepts n).map fun _ => failure := by
  induction ns with
  | nil => rfl
  | cons n ns ih =>
    have hn := kept_entries settings accepts n
    rw [kept] at hn ih ⊢
    rw [List.flatMap_cons, List.filter_append, hn, ih, List.filter_cons]
    cases accepts n <;> rfl

/-- Of what converting a text with blocks tells, the failures of the listener alone are kept. -/
theorem kept_convertMarkup (c : Converter) (options : Markup.Options) (t : Text) :
    (timed settings).kept (c.convertMarkup options t).journal =
      ((c.convertMarkup options t).notices.filter fun n => !options.accepts n).map fun _ => failure := by
  have hjournal : (c.convertMarkup options t).journal =
      (c.convertMarkup options t).notices.flatMap (Markup.Conversion.entries options.accepts) ++
        [⟨Markup.Conversion.channel, debug, .timing Markup.Conversion.operation⟩] := rfl
  have hnotices := kept_flatMap_entries settings options.accepts (c.convertMarkup options t).notices
  rw [kept] at hnotices ⊢
  rw [hjournal, List.filter_append, hnotices, List.filter_cons_of_neg (not_keeps_debug settings _),
    List.filter_nil, List.append_nil]

end Channels

/-- After any settings of which the last shows timing, an operation timed on the timing channel tells
its time. Building a converter is timed on a channel of its own, and so is converting a text with
blocks: nothing that building tells is kept, and of a conversion the failures of the listener alone. -/
theorem kept_timed (settings : List Channels.Setting) :
    (∀ operation, (Channels.timed settings).keeps ⟨timingChannel, debug, .timing operation⟩) ∧
      (∀ b : Builder, (Channels.timed settings).kept b.build.journal = []) ∧
      ∀ (c : Converter) (options : Markup.Options) (t : Text),
        (Channels.timed settings).kept (c.convertMarkup options t).journal =
          ((c.convertMarkup options t).notices.filter fun n => !options.accepts n).map
            fun _ => failure := by
  refine ⟨fun operation => ?_, Channels.kept_build settings, Channels.kept_convertMarkup settings⟩
  rw [Channels.keeps_timed_iff, lineage_timingChannel]
  simp

/-- One of the entries tells a time, that of this operation, and no other is for debugging. -/
def TellsTime (operation : Text) (es : List Entry) : Prop :=
  operations es = [operation] ∧ ∀ e ∈ es, e.level = debug → e.message = .timing operation

theorem not_forall_tellsTime :
    (¬∀ (settings : List Channels.Setting) (b : Builder),
      TellsTime Builder.operation ((Channels.timed settings).kept b.build.journal)) ∧
      ¬∀ (settings : List Channels.Setting) (c : Converter) (options : Markup.Options) (t : Text),
        TellsTime Markup.Conversion.operation
          ((Channels.timed settings).kept (c.convertMarkup options t).journal) := by
  constructor <;> intro h
  · have hb := (h [] {}).1
    rw [Channels.kept_build] at hb
    cases hb
  · have hc := (h [] (Converter.ofPairs .zh []) .basic []).1
    rw [Channels.kept_convertMarkup] at hc
    simp [Markup.Options.basic, operations] at hc

end Journal
end HanVariants
