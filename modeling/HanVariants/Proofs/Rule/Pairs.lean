import HanVariants.Proofs.Refusal
/-!
# A rule converts what it shows

What a rule shows for a variant and what its pairs turn other spellings into is found by two separate
ways through its fallbacks and its items. They agree wherever there is a spelling to be found: each
spelling of another variant becomes what is shown, unless a one-way item says otherwise
(`get?_pairs_of_spelling`). A converter built from the rule alone does just this to the spelling as a
whole text, whatever other words begin with it or are part of it (`convert_spelling`).
-/

namespace HanVariants

namespace Rule

/-! ## The pairs of a rule -/

section Pairs

variable {r : Rule} {v w : Variant} {s target : Text}

/-- The last one-way item for a variant that has this source. -/
def lastOneWay? (r : Rule) (v : Variant) (s : Text) : Option OneWay :=
  (r.oneWay.filter fun item => item.variant = v ∧ item.source = s).getLast?

theorem last?_oneWayPairs (r : Rule) (v : Variant) (s : Text) :
    OrderedMap.last? s (r.oneWayPairs v) = (r.lastOneWay? v s).map (·.target) := by
  have hfilter : ∀ item ∈ r.oneWay,
      (decide (item.source = s) && decide (item.variant = v)) =
        decide (item.variant = v ∧ item.source = s) := fun item _ => by
    rw [Bool.and_comm, Bool.decide_and]
  rw [OrderedMap.last?_eq_getLast?, oneWayPairs, oneWayFor, List.filter_map, List.filter_filter,
    List.getLast?_map, Option.map_map, lastOneWay?, ← List.filter_congr hfilter]
  rfl

theorem isSome_spelling?_iff :
    (r.spelling? v).isSome ↔ ∃ w ∈ v :: v.fallbacks, (r.spellings.get? w).isSome :=
  List.findSome?_isSome_iff

theorem shown_of_spelling? (h : r.spelling? v = some target) : r.shown v = target := by
  rw [shown, h]

theorem last?_spellingPairs (h : r.spelling? v = some target) (hw : w ≠ v)
    (hs : (w, s) ∈ r.spellings.toList) : OrderedMap.last? s (r.spellingPairs v) = some target := by
  have hpairs : r.spellingPairs v =
      (r.spellings.toList.filter (·.1 ≠ v)).map fun p => (p.2, target) := by
    rw [spellingPairs, h]
  rw [hpairs]
  apply OrderedMap.last?_eq_some_of_forall
  · rintro p hp
    obtain ⟨q, -, rfl⟩ := List.mem_map.1 hp
    rfl
  · rw [List.map_map]
    exact List.mem_map.2 ⟨(w, s), List.mem_filter.2 ⟨hs, by simpa using hw⟩, rfl⟩

/-- The spelling of another variant becomes what is shown, unless a one-way item says otherwise. -/
theorem get?_pairs_of_spelling (h : (r.spelling? v).isSome) (hw : w ≠ v)
    (hs : (w, s) ∈ r.spellings.toList) :
    (r.pairs v).get? s = some (match r.lastOneWay? v s with
      | some item => item.target
      | none => r.shown v) := by
  obtain ⟨target, htarget⟩ := Option.isSome_iff_exists.1 h
  rw [pairs, OrderedMap.get?_ofList, OrderedMap.last?_append, last?_oneWayPairs,
    last?_spellingPairs htarget hw hs, shown_of_spelling? htarget]
  cases r.lastOneWay? v s <;> rfl

/-- A pair comes from the spelling of another variant or from a one-way item for this one. -/
theorem source_of_mem_keys_pairs (hs : s ∈ (r.pairs v).keys) :
    (∃ w, w ≠ v ∧ (w, s) ∈ r.spellings.toList) ∨ ∃ item ∈ r.oneWay, item.variant = v ∧ item.source = s := by
  obtain ⟨p, hp, rfl⟩ := List.mem_map.1 hs
  rcases List.mem_append.1 (OrderedMap.mem_ofList hp) with hp | hp
  · left
    unfold spellingPairs at hp
    split at hp
    · cases hp
    · obtain ⟨⟨w, text⟩, hq, rfl⟩ := List.mem_map.1 hp
      obtain ⟨hmem, hne⟩ := List.mem_filter.1 hq
      exact ⟨w, by simpa using hne, hmem⟩
  · right
    obtain ⟨item, hitem, rfl⟩ := List.mem_map.1 hp
    obtain ⟨hmem, hvariant⟩ := List.mem_filter.1 hitem
    exact ⟨item, hmem, by simpa using hvariant, rfl⟩

/-- A rule that was read has one spelling for a variant. -/
theorem nodup_keys_spellings {t : Text} (h : parse t = .ok r) : r.spellings.keys.Nodup := by
  obtain ⟨items, -, -, rfl⟩ := parse_eq_ok_iff.1 h
  rw [ofItems_eq]
  exact OrderedMap.nodup_keys_ofList _

end Pairs

/-! ## The converter of a rule -/

/-- A builder that was given just one rule builds the converter of its pairs. -/
theorem build_addRule {r : Rule} (h : r.Filled) (v : Variant) :
    let o := (({} : Builder).setTarget v).addRule r
    o.error? = none ∧ ∃ c, o.builder.build.result = .ok c ∧ c.Replaces (.ofPairs (r.pairs v).toList) := by
  intro o
  obtain ⟨herror, hbuilder⟩ := Builder.addRule_of_filled h (({} : Builder).setTarget v)
  have hadds : o.builder.adds.toList = (r.pairs v).toList := by
    rw [hbuilder]
    exact OrderedMap.toList_ofList (r.nodup_keys_pairs v)
  have hpairs : o.builder.pairs = .ok (r.pairs v).toList := by
    rw [Builder.pairs_of_aligned (by rw [hbuilder]; simp [Builder.setTarget]), hadds, hbuilder]
    simp [Builder.setTarget]
  refine ⟨herror, .ofPairs o.builder.target (r.pairs v).toList, ?_,
    Converter.replaces_of_reads (Automaton.reads_ofPairs _)⟩
  change o.builder.pairs.map _ = _
  rw [hpairs]
  rfl

/-- For every rule that was read and every variant: the sources of its pairs are distinct, and each of
them is the spelling of another variant or the source of a one-way item for this one. Where there is a
spelling for the variant, its own or that of a fallback, a converter of the rule turns the spelling of
another variant into what is shown, unless it is the source of a one-way item: then the last such item
says what it becomes. -/
theorem convert_spelling {t : Text} {r : Rule} (h : parse t = .ok r) (v : Variant) :
    (r.pairs v).keys.Nodup ∧
    (∀ s ∈ (r.pairs v).keys, (∃ w, w ≠ v ∧ r.spellings.get? w = some s) ∨
      ∃ item ∈ r.oneWay, item.variant = v ∧ item.source = s) ∧
    ((∃ w ∈ v :: v.fallbacks, (r.spellings.get? w).isSome) →
      let o := (({} : Builder).setTarget v).addRule r
      o.error? = none ∧ ∃ c, o.builder.build.result = .ok c ∧
        ∀ w s, w ≠ v → r.spellings.get? w = some s →
          c.convert s = match r.lastOneWay? v s with
            | some item => item.target
            | none => r.shown v) := by
  have hget : ∀ {w s}, r.spellings.get? w = some s ↔ (w, s) ∈ r.spellings.toList :=
    OrderedMap.get?_eq_some_iff (nodup_keys_spellings h)
  have hfilled := filled_of_parse h
  refine ⟨r.nodup_keys_pairs v, fun s hs => ?_, fun hv => ?_⟩
  · simp only [hget]
    exact source_of_mem_keys_pairs hs
  · obtain ⟨herror, c, hc, hreplaces⟩ := build_addRule hfilled v
    refine ⟨herror, c, hc, fun w s hw hs => ?_⟩
    have hpair := get?_pairs_of_spelling (isSome_spelling?_iff.2 hv) hw (hget.1 hs)
    apply hreplaces.convert_word
    rw [Dictionary.get?_ofPairs, if_neg (hfilled.spellings (w, s) (hget.1 hs)), ← hpair]
    exact (OrderedMap.get?_eq_last? (r.nodup_keys_pairs v) s).symm

/-- The target has no spelling of its own, and one spelling begins another. -/
theorem convert_spelling_macau :
    let r : Rule := {
      spellings := ⟨[(.cn, ['甲']), (.tw, ['乙']), (.hk, ['甲', '乙'])]⟩
      oneWay := [⟨['甲'], .mo, ['丙']⟩, ⟨['甲'], .mo, ['丁']⟩] }
    parse "zh-cn:甲;zh-tw:乙;zh-hk:甲乙;甲=>zh-mo:丙;甲=>zh-mo:丁".toList = .ok r ∧
      (r.spellings.get? .hk).isSome ∧ r.spellings.get? .tw = some ['乙'] ∧ r.spellings.get? .cn = some ['甲'] ∧
      ∃ c, (((({} : Builder).setTarget .mo).addRule r).builder.build.result = .ok c) ∧
        c.convert ['乙'] = ['甲', '乙'] ∧ c.convert ['甲'] = ['丁'] := by
  intro r
  have hparse : parse "zh-cn:甲;zh-tw:乙;zh-hk:甲乙;甲=>zh-mo:丙;甲=>zh-mo:丁".toList = .ok r := by
    decide +kernel
  obtain ⟨-, -, hconvert⟩ := convert_spelling hparse .mo
  obtain ⟨-, c, hc, h⟩ := hconvert ⟨.hk, by decide, by decide⟩
  exact ⟨hparse, by decide, by decide, by decide, c, hc, h .tw ['乙'] (by decide) (by decide),
    h .cn ['甲'] (by decide) (by decide)⟩

end Rule

end HanVariants
