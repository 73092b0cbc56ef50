import HanVariants.Proofs.Markup.Conversion
/-!
# The global rules of a page

A page is scanned for its global rules and read for its blocks by two scans of their own. They see
the same blocks: what the scan finds at any point, with any blocks open, is what the blocks tell
that a reading closes from there on (`Page.scan_eq_filterMap_events`).

Under the rules of its page a text is converted with the words that they add. Such a word does not
become its target wherever it stands: a shorter word of the converter at the same place goes first
(`convertMarkup_own_word`).
-/

namespace HanVariants.Markup

/-- The global rule of the block that an event tells of. -/
def Event.globalRule? : Event → Option GlobalRule
  | block _ _ _ inner _ => (Block.parse inner).globalRule?
  | unterminated .. => none

/-- The global rule of the block that a listener is told of. -/
def Notice.globalRule? : Notice → Option GlobalRule
  | globalRules .. => none
  | reading e => e.globalRule?

theorem filterMap_globalRule?_cons (e : Event) (es : List Event) :
    (e :: es).filterMap Event.globalRule? = e.globalRule?.toList ++ es.filterMap Event.globalRule? := by
  rw [List.filterMap_cons]
  cases e.globalRule? <;> rfl

/-- Where nothing is protected, only a block is met outside every block. -/
theorem landmark_eq_opening {t before after : Text} {l : Landmark}
    (h : cutOutside? false t = some (before, l, after)) : l = .opening := by
  obtain ⟨u, -, hu⟩ := Text.cutBy?_eq h
  unfold readLandmark? at hu
  split at hu
  · cases hu
    rfl
  · cases hu

namespace Page

/-! ## The scan -/

section

variable {v : Variant} {t : Text}

theorem scan_outside :
    scan v [] t =
      match cutOutside? false t with
      | none => []
      | some (_, _, after) => scan v [[]] after := by
  rw [scan]
  split
  · next h => rw [h]
  · next h => rw [h]

theorem scan_inside (frame : Text) (outer : List Text) :
    scan v (frame :: outer) t =
      match cutInside? t with
      | none => []
      | some (before, .opening, after) =>
        if outer.length + 1 < maxDepth then scan v ([] :: (frame ++ before) :: outer) after
        else scan v ((frame ++ before ++ Mark.opening.text) :: outer) after
      | some (before, .closing, after) =>
        (Block.parse (frame ++ before)).globalRule?.toList ++
          scan v (addText ((Block.parse (frame ++ before)).render v) outer) after := by
  rw [scan]
  split
  · next h => rw [h]
  · next h =>
    rw [h]
    rfl
  · next h => rw [h]

/-- With the same blocks open, the scan finds the rules of the blocks that a reading closes. -/
theorem scan_eq_filterMap_events (v : Variant) (position : Nat) (frames : List Frame) (t : Text) :
    scan v (frames.map Frame.text) t =
      (Reading.read (Dialect.standard.render · v) false position frames t).events.filterMap
        Event.globalRule? := by
  fun_induction Reading.read (Dialect.standard.render · v) false position frames t with
  | case1 position t h =>
    rw [List.map_nil, scan_outside, h]
    rfl
  | case2 position t before after h start ih =>
    rw [List.map_nil, scan_outside, h]
    exact ih
  | case3 position t before region after h ih => cases landmark_eq_opening h
  | case4 position t frame outer h =>
    rw [List.map_cons, scan_inside, h]
    rfl
  | case5 position t frame outer before after h start hd ih =>
    rw [List.map_cons, scan_inside, h, if_pos hd]
    simp only [List.length_map]
    exact (if_pos hd).trans ih
  | case6 position t frame outer before after h start hd ih =>
    rw [List.map_cons, scan_inside, h, if_neg hd]
    simp only [List.length_map]
    rw [List.append_assoc]
    exact (if_neg hd).trans ih
  | case7 position t frame outer before after h stop inner shown ih ih' =>
    rw [List.map_cons, scan_inside, h]
    have hcons := filterMap_globalRule?_cons (.block frame.start stop (outer.length + 1) inner shown)
    -- what is shown goes into the block around, if there is one
    cases outer with
    | nil => exact (congrArg (_ ++ ·) ih).trans (hcons _).symm
    | cons f outer => exact (congrArg (_ ++ ·) (ih' f outer)).trans (hcons _).symm

end

/-- A page has just the global rules of the blocks that a conversion of it tells of, in the same
order, whatever the converter, where no regions are protected. -/
theorem globalRules_eq_filterMap_notices (c : Converter) (globalRules : Bool) (accepts : Notice → Bool)
    (t : Text) :
    Page.globalRules t c.variant =
      (c.convertMarkup { globalRules, accepts } t).notices.filterMap Notice.globalRule? := by
  rw [c.filterMap_notices fun _ _ => rfl]
  exact scan_eq_filterMap_events c.variant 0 [] t

end Page

end HanVariants.Markup

namespace HanVariants

/-! ## The edits of a rule that adds -/

namespace GlobalRule

variable {v : Variant} {r : Rule} {s t : Text}

theorem filterMap_added?_edits :
    ((add r).edits v).filterMap Edit.added? = (r.pairs v).toList.filter (·.1 ≠ []) := by
  rw [edits, List.filterMap_map]
  exact List.filterMap_some

/-- A rule adds each of its words once. -/
theorem get?_ofEdits_add :
    (Dictionary.ofEdits ((add r).edits v)).get? s = some t ↔ .add s t ∈ (add r).edits v := by
  have hd : (((r.pairs v).toList.filter (·.1 ≠ [])).map (·.1)).Nodup :=
    (r.nodup_keys_pairs v).sublist (List.filter_sublist.map _)
  have hne : ∀ p ∈ (r.pairs v).toList.filter (·.1 ≠ []), p.1 ≠ [] := fun p hp => by
    simpa using (List.mem_filter.1 hp).2
  rw [Dictionary.ofEdits, filterMap_added?_edits, Dictionary.get?_ofPairs_eq_some_iff hd hne, edits,
    List.mem_map]
  constructor
  · intro h
    exact ⟨_, h, rfl⟩
  · rintro ⟨p, hp, he⟩
    cases he
    exact hp

theorem not_suppressed_add (w : Text) : ¬ Edit.Suppressed ((add r).edits v) w := by
  rintro ⟨-, h⟩
  obtain ⟨p, -, he⟩ := List.mem_map.1 h
  cases he

theorem ne_nil_of_add_mem_edits (h : .add s t ∈ (add r).edits v) : s ≠ [] := by
  rintro rfl
  have hnil := get?_ofEdits_add.2 h
  rw [Dictionary.get?_nil] at hnil
  cases hnil

end GlobalRule

theorem Overlay.get?_ofEdits_of_isEmpty {edits : List Edit} (h : (ofEdits edits).isEmpty) (w : Text) :
    (Dictionary.ofEdits edits).get? w = none := by
  have hadds : (addsOf edits).toList = [] := List.isEmpty_iff.1 (Bool.and_eq_true_iff.1 h).1
  rw [Dictionary.ofEdits, ← Dictionary.ofPairs_toList_ofList, ← addsOf_eq_ofList, hadds,
    Dictionary.get?_ofPairs]
  exact ite_self none

theorem GlobalRule.not_isEmpty_ofEdits_add {v : Variant} {r : Rule} {s t : Text}
    (h : .add s t ∈ (add r).edits v) : ¬ (Overlay.ofEdits ((add r).edits v)).isEmpty := by
  intro hempty
  have hget := GlobalRule.get?_ofEdits_add.2 h
  rw [Overlay.get?_ofEdits_of_isEmpty hempty] at hget
  cases hget

namespace Markup

/-! ## A block and a text after it -/

/-- No mark stands anywhere in a text. -/
def Unmarked (t : Text) : Prop := ∀ m : Mark, ¬ m.text <:+: t

theorem Unmarked.tail {c : Char} {t : Text} (h : Unmarked (c :: t)) : Unmarked t :=
  fun m hm => h m (hm.trans (List.suffix_cons c t).isInfix)

/-- Where two characters do not follow each other in a text, they do not with what comes after it
either, unless the second one is first there. -/
theorem not_follows_of_not_isInfix {a b c : Char} {r u : Text} (h : ¬ [a, b] <:+: c :: r)
    (hu : u.head? ≠ some b) (t : Text) : c = a → r ++ u = b :: t → False := by
  rintro rfl he
  cases r with
  | nil => exact hu (congrArg List.head? he)
  | cons d r =>
    cases he
    exact h ⟨[], r, rfl⟩

theorem cutInside?_unmarked {r : Text} (h : Unmarked r) (s : Text) :
    cutInside? (r ++ (Mark.closing.text ++ s)) = some (r, .closing, s) := by
  induction r with
  | nil => exact cutInside?_closing
  | cons c r ih =>
    have ho := not_follows_of_not_isInfix (u := Mark.closing.text ++ s) (h .opening) (by simp [Mark.text])
    have hc := not_follows_of_not_isInfix (u := Mark.closing.text ++ s) (h .closing) (by simp [Mark.text])
    rw [List.cons_append, cutInside?_cons ho hc, ih h.tail]
    rfl

theorem cutOutside?_of_not_opening {s : Text} (h : ¬ Mark.opening.text <:+: s) :
    cutOutside? false s = none := by
  refine Text.cutBy?_eq_none_iff.2 fun before u he => ?_
  rw [readLandmark?, Text.read?_eq_none]
  · rfl
  · rintro ⟨u', rfl⟩
    exact h ⟨before, u', by rw [he, List.append_assoc]⟩

theorem ofText_block (render : Text → Text) {r s : Text} (hr : Unmarked r)
    (hs : ¬ Mark.opening.text <:+: s) :
    Reading.ofText render false (Mark.opening.text ++ r ++ Mark.closing.text ++ s) =
      { pieces := [.outside [], .verbatim (render r), .outside s]
        events := [.block 0 (r.length + 4) 1 r (render r)] } := by
  have hopening : Mark.opening.text ++ r ++ Mark.closing.text ++ s =
      '-' :: '{' :: (r ++ (Mark.closing.text ++ s)) := by
    simp [Mark.text]
  rw [Reading.ofText, hopening, Reading.read_outside, cutOutside?_opening]
  dsimp only
  rw [Reading.read_inside, cutInside?_unmarked hr]
  dsimp only
  rw [Reading.resume, Reading.read_outside, cutOutside?_of_not_opening hs]
  simp [Reading.addPieces, Reading.addEvent]
  omega

/-- The rule of the only block of a page is its only global rule. -/
theorem Page.globalRules_block {r s : Text} {g : GlobalRule} (hr : Unmarked r)
    (hs : ¬ Mark.opening.text <:+: s) (hg : (Block.parse r).globalRule? = some g) (v : Variant) :
    Page.globalRules (Mark.opening.text ++ r ++ Mark.closing.text ++ s) v = [g] := by
  have hscan := scan_eq_filterMap_events v 0 [] (Mark.opening.text ++ r ++ Mark.closing.text ++ s)
  rw [← Reading.ofText, ofText_block _ hr hs] at hscan
  rw [globalRules, ← List.map_nil, hscan]
  simp [Event.globalRule?, hg]

end Markup

/-! ## A word that a page adds -/

namespace Dictionary

variable {base : Dictionary Text} {v : Variant} {rule : Rule} {s t : Text}

/-- At the beginning of an added word the longest word of the dictionary is picked if it is shorter. -/
theorem picked?_of_shorter (hst : .add s t ∈ (GlobalRule.add rule).edits v) {b : Entry Text}
    (hb : base.longest? s = some b) (hlt : b.word.length < s.length) :
    base.picked? (.ofEdits ((GlobalRule.add rule).edits v))
      (Edit.Suppressed ((GlobalRule.add rule).edits v)) s = some b := by
  obtain ⟨e, he, hword, -⟩ := longest?_self (GlobalRule.get?_ofEdits_add.2 hst)
  have hfirst : ∀ o, (ofEdits ((GlobalRule.add rule).edits v)).longest? s = some o →
      b.word.length < o.word.length := by
    intro o ho
    cases he.symm.trans ho
    rwa [hword]
  refine (picked?_of_base hb hfirst).trans (if_neg ?_)
  exact not_or.2 ⟨GlobalRule.not_suppressed_add _, GlobalRule.not_suppressed_add _⟩

/-- Otherwise the added word itself is picked. -/
theorem picked?_of_added_word (hst : .add s t ∈ (GlobalRule.add rule).edits v)
    (hb : ∀ b, base.longest? s = some b → s.length ≤ b.word.length) :
    ∃ e, base.picked? (.ofEdits ((GlobalRule.add rule).edits v))
      (Edit.Suppressed ((GlobalRule.add rule).edits v)) s = some e ∧ e.word = s ∧ e.value = t := by
  obtain ⟨e, he, hword, hvalue⟩ := longest?_self (GlobalRule.get?_ofEdits_add.2 hst)
  exact ⟨e, picked?_of_added he (hword ▸ hb), hword, hvalue⟩

end Dictionary

namespace Converter

open Markup

variable {v : Variant} {pairs : List (Text × Text)} {rule : Rule} {r s t : Text}

/-- A word that a rule adds, by itself: the longest word of the converter at its beginning goes
first if it is shorter. -/
theorem convertWith_own_word (hst : .add s t ∈ (GlobalRule.add rule).edits v) :
    (ofPairs v pairs).convertWith (.ofEdits ((GlobalRule.add rule).edits v)) s =
      match (Dictionary.ofPairs pairs).longest? s with
      | none => t
      | some b =>
        if b.word.length < s.length then
          b.value ++ (ofPairs v pairs).convertWith (.ofEdits ((GlobalRule.add rule).edits v))
            (s.drop b.word.length)
        else t := by
  let edits := (GlobalRule.add rule).edits v
  let pick := Dictionary.picked? (.ofPairs pairs) (.ofEdits edits) (Edit.Suppressed edits)
  have hrewrite : ∀ u, (ofPairs v pairs).convertWith (.ofEdits edits) u = rewriteBy pick u := fun u =>
    convertFrom_eq_rewriteBy (Automaton.reads_ofPairs pairs) (Overlay.reads_ofEdits edits)
      (Overlay.mem_suppressed_ofEdits edits) _ _ u rfl rfl
  have hne : s ≠ [] := GlobalRule.ne_nil_of_add_mem_edits hst
  have whole (hb : ∀ b, (Dictionary.ofPairs pairs).longest? s = some b → s.length ≤ b.word.length) :
      (ofPairs v pairs).convertWith (.ofEdits edits) s = t := by
    obtain ⟨e, he, hword, hvalue⟩ := Dictionary.picked?_of_added_word hst hb
    rw [hrewrite, rewriteBy_of_some hne he, hword, hvalue, List.drop_length, rewriteBy_nil,
      List.append_nil]
  cases hb : (Dictionary.ofPairs pairs).longest? s with
  | none => exact whole (by simp [hb])
  | some b =>
    dsimp only
    split
    · next hlt =>
      have hpick : pick s = some b := Dictionary.picked?_of_shorter hst hb hlt
      exact (hrewrite s).trans ((rewriteBy_of_some hne hpick).trans (by rw [hrewrite]))
    · next hle => exact whole (by simpa [hb] using hle)

/-- A block with a global rule and a text after it: the block shows what it does, and the text is
converted under the edits of the rule. -/
theorem text_convertMarkup_block (c : Converter) {g : GlobalRule} (hr : Unmarked r)
    (hs : ¬ Mark.opening.text <:+: s) (hg : (Block.parse r).globalRule? = some g)
    (hne : ¬ (Overlay.ofEdits (g.edits c.variant)).isEmpty) :
    (c.convertMarkup { globalRules := true } (Mark.opening.text ++ r ++ Mark.closing.text ++ s)).text =
      (Block.parse r).render c.variant ++ c.convertWith (.ofEdits (g.edits c.variant)) s := by
  have hedits : Dialect.standard.edits (Mark.opening.text ++ r ++ Mark.closing.text ++ s) c.variant =
      g.edits c.variant := by
    change Page.edits (Page.globalRules _ c.variant) c.variant = _
    rw [Page.globalRules_block hr hs hg, Page.edits, List.flatMap_singleton]
  have hplain : Markup.plain c (overlay? { globalRules := true } c.variant
      (Mark.opening.text ++ r ++ Mark.closing.text ++ s)) =
        c.convertWith (.ofEdits (g.edits c.variant)) := by
    rw [plain_overlay?]
    dsimp only
    rw [hedits]
    simp [hne]
  rw [convertMarkup]
  dsimp only
  rw [hplain, ofText_block _ hr hs]
  simp [Reading.text, c.convertWith_nil]
  rfl

/-- What a page becomes that adds a word by a block and then has just this word: what the block shows
and then the target, unless the longest word of the converter at the beginning of the word is shorter
than it. Then that word goes first, and the rest of the added one is converted under the rule. -/
theorem convertMarkup_own_word (pairs : List (Text × Text)) (hr : Unmarked r)
    (hs : ¬ Mark.opening.text <:+: s) (hrule : (Block.parse r).globalRule? = some (.add rule))
    (hst : .add s t ∈ (GlobalRule.add rule).edits v) :
    ((ofPairs v pairs).convertMarkup { globalRules := true }
        (Mark.opening.text ++ r ++ Mark.closing.text ++ s)).text =
      (Block.parse r).render v ++
        match (Dictionary.ofPairs pairs).longest? s with
        | none => t
        | some b =>
          if b.word.length < s.length then
            b.value ++ (ofPairs v pairs).convertWith (.ofEdits ((GlobalRule.add rule).edits v))
              (s.drop b.word.length)
          else t := by
  have hne : ¬ (Overlay.ofEdits ((GlobalRule.add rule).edits (ofPairs v pairs).variant)).isEmpty :=
    GlobalRule.not_isEmpty_ofEdits_add hst
  rw [text_convertMarkup_block _ hr hs hrule hne]
  exact congrArg (_ ++ ·) (convertWith_own_word hst)

/-! ### A word that begins with another -/

/-- A block that shows nothing and names a word in two variants. -/
def computerBlock : Text := "H|zh-cn:电脑;zh-tw:計算機".toList

def computerRule : Rule where
  spellings := .ofList [(.cn, "电脑".toList), (.tw, "計算機".toList)]

theorem unmarked_computerBlock : Unmarked computerBlock := by
  intro m
  cases m <;> decide

theorem parse_computerBlock :
    Block.parse computerBlock =
      { text := "zh-cn:电脑;zh-tw:計算機".toList, flags := [.hide], rule? := some computerRule } := by
  decide +kernel

theorem globalRule?_computerBlock :
    (Block.parse computerBlock).globalRule? = some (.add computerRule) :=
  congrArg Block.globalRule? parse_computerBlock

theorem render_computerBlock : (Block.parse computerBlock).render .cn = [] :=
  congrArg (Block.render · .cn) parse_computerBlock

theorem add_mem_edits_computerRule :
    .add "計算機".toList "电脑".toList ∈ (GlobalRule.add computerRule).edits .cn := by decide

/-- The target of the page goes before that of a converter that has the same word. -/
theorem convertMarkup_own_word_computer :
    ((ofPairs .cn [("計算機".toList, "计算机".toList)]).convertMarkup { globalRules := true }
      (Mark.opening.text ++ computerBlock ++ Mark.closing.text ++ "計算機".toList)).text =
        "电脑".toList := by
  have hpage := convertMarkup_own_word [("計算機".toList, "计算机".toList)] unmarked_computerBlock
    (by decide) globalRule?_computerBlock add_mem_edits_computerRule
  rwa [render_computerBlock] at hpage

/-- A converter that has the first character as a word replaces just this one, so a page does not
always get the target of a word that it adds. -/
theorem not_forall_own_word :
    ¬ ∀ (v : Variant) (pairs : List (Text × Text)) (rule : Rule) (r s t : Text), Unmarked r →
      ¬ Mark.opening.text <:+: s → (Block.parse r).globalRule? = some (.add rule) →
      .add s t ∈ (GlobalRule.add rule).edits v →
      ((ofPairs v pairs).convertMarkup { globalRules := true }
        (Mark.opening.text ++ r ++ Mark.closing.text ++ s)).text = (Block.parse r).render v ++ t := by
  intro h
  let c := ofPairs .cn [("計".toList, "计".toList)]
  have hne : ¬ (Overlay.ofEdits ((GlobalRule.add computerRule).edits c.variant)).isEmpty :=
    GlobalRule.not_isEmpty_ofEdits_add add_mem_edits_computerRule
  have hs : ¬ Mark.opening.text <:+: "計算機".toList := by decide
  have hblock := c.text_convertMarkup_block unmarked_computerBlock hs globalRule?_computerBlock hne
  have hpage := h .cn [("計".toList, "计".toList)] computerRule computerBlock "計算機".toList "电脑".toList
    unmarked_computerBlock hs globalRule?_computerBlock add_mem_edits_computerRule
  have hword := (convertWith_own_word add_mem_edits_computerRule).symm.trans
    (List.append_cancel_left (hblock.symm.trans hpage))
  -- the first characters differ
  have hfirst : '计' = '电' := (List.cons.inj hword).1
  exact absurd hfirst (by decide)

end Converter

end HanVariants
