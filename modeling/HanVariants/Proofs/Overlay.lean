import HanVariants.Proofs.Converter
/-!
# An overlay as an edit of the dictionary

A conversion under an overlay leaves the words of the dictionary as they are and passes over those
that are suppressed. The same words could be taken out of the dictionary and those added put into it
(`Overlay.edit`). Both come to the same where no word gets in the way of another
(`convertWith_eq_convert_edit`): where two words could be taken at one place, one of them begins the
other, and just that is excluded (`Compatible`).
-/

namespace HanVariants

namespace Dictionary

variable {base added : Dictionary Text} {suppressed : Text → Prop}

/-- No word begins a longer one of the other dictionary, and no word of the first one begins a longer
one that is suppressed. -/
structure Compatible (base added : Dictionary Text) (suppressed : Text → Prop) : Prop where
  apart : ∀ w u, (base.get? w).isSome → (added.get? u).isSome → w <+: u ∨ u <+: w → w = u
  alone : ∀ w u a, (base.get? w).isSome → base.get? u = some a → suppressed u ∨ suppressed a →
    w <+: u → w = u

/-- Where an added word stands, no other word of the dictionary does. -/
theorem Compatible.eq_of_longest? (h : base.Compatible added suppressed) {t w : Text} {o : Entry Text}
    (ho : added.longest? t = some o) (hw : (base.get? w).isSome) (hp : w <+: t) : w = o.word := by
  obtain ⟨hop, hov, -⟩ := longest?_eq_some_iff.1 ho
  exact h.apart w o.word hw (by rw [hov]; rfl) (List.prefix_or_prefix_of_prefix hp hop)

theorem mem_of_get?_ofPairs {pairs : List (Text × Text)} {w a : Text}
    (h : (ofPairs pairs).get? w = some a) : (w, a) ∈ pairs := by
  rw [get?_ofPairs] at h
  split at h
  · cases h
  · exact OrderedMap.mem_of_last?_eq_some h

/-- The condition on the words of two lists of pairs, where each counts even if a later one replaces
it. -/
theorem compatible_ofPairs {pairs more : List (Text × Text)}
    (apart : ∀ p ∈ pairs, ∀ q ∈ more, p.1 <+: q.1 ∨ q.1 <+: p.1 → p.1 = q.1)
    (alone : ∀ p ∈ pairs, ∀ q ∈ pairs, suppressed q.1 ∨ suppressed q.2 → p.1 <+: q.1 → p.1 = q.1) :
    (ofPairs pairs).Compatible (ofPairs more) suppressed := by
  constructor
  · intro w u hw hu
    obtain ⟨a, hw⟩ := Option.isSome_iff_exists.1 hw
    obtain ⟨b, hu⟩ := Option.isSome_iff_exists.1 hu
    exact apart _ (mem_of_get?_ofPairs hw) _ (mem_of_get?_ofPairs hu)
  · intro w u a hw hu
    obtain ⟨b, hw⟩ := Option.isSome_iff_exists.1 hw
    exact alone _ (mem_of_get?_ofPairs hw) _ (mem_of_get?_ofPairs hu)

/-! ## The edited dictionary -/

variable [DecidablePred suppressed]

/-- The words of a dictionary that are not suppressed, and over them the words added. -/
def edited (base added : Dictionary Text) (suppressed : Text → Prop) [DecidablePred suppressed] :
    Dictionary Text where
  get? w := (added.get? w).or ((base.get? w).filter fun a => ¬ (suppressed w ∨ suppressed a))
  get?_nil := by rw [added.get?_nil, base.get?_nil]; rfl

theorem get?_edited (base added : Dictionary Text) (w : Text) :
    (base.edited added suppressed).get? w =
      (added.get? w).or ((base.get? w).filter fun a => ¬ (suppressed w ∨ suppressed a)) := rfl

theorem get?_edited_of_added {w a : Text} (h : added.get? w = some a) :
    (base.edited added suppressed).get? w = some a := by
  rw [get?_edited, h, Option.some_or]

theorem get?_edited_of_not_added {w : Text} (h : added.get? w = none) :
    (base.edited added suppressed).get? w =
      (base.get? w).filter fun a => ¬ (suppressed w ∨ suppressed a) := by
  rw [get?_edited, h, Option.none_or]

theorem isSome_of_edited {w : Text} (h : ((base.edited added suppressed).get? w).isSome) :
    (added.get? w).isSome ∨ (base.get? w).isSome := by
  rw [get?_edited, Option.isSome_or, Bool.or_eq_true] at h
  refine h.imp_right fun h => ?_
  obtain ⟨a, ha⟩ := Option.isSome_iff_exists.1 h
  exact Option.isSome_iff_exists.2 ⟨a, (Option.filter_eq_some_iff.1 ha).1⟩

/-! ## The longest word of the edited dictionary -/

variable {t : Text}

theorem Compatible.longest?_edited_of_added (h : base.Compatible added suppressed) {o : Entry Text}
    (ho : added.longest? t = some o) : (base.edited added suppressed).longest? t = some o := by
  obtain ⟨hop, hov, hlongest⟩ := longest?_eq_some_iff.1 ho
  refine longest?_eq_some_iff.2 ⟨hop, get?_edited_of_added hov, fun w hp hw => ?_⟩
  rcases isSome_of_edited hw with hw | hw
  · exact hlongest w hp hw
  · rw [h.eq_of_longest? ho hw hp]

theorem longest?_edited_of_none (ha : added.longest? t = none) (hb : base.longest? t = none) :
    (base.edited added suppressed).longest? t = none := by
  refine longest?_eq_none_iff.2 fun w hp => ?_
  rw [get?_edited_of_not_added (longest?_eq_none_iff.1 ha w hp), longest?_eq_none_iff.1 hb w hp]
  rfl

theorem longest?_edited_of_kept (ha : added.longest? t = none) {b : Entry Text}
    (hb : base.longest? t = some b) (hkept : ¬ (suppressed b.word ∨ suppressed b.value)) :
    (base.edited added suppressed).longest? t = some b := by
  have hadded := longest?_eq_none_iff.1 ha
  obtain ⟨hbp, hbv, hlongest⟩ := longest?_eq_some_iff.1 hb
  refine longest?_eq_some_iff.2 ⟨hbp, ?_, fun w hp hw => hlongest w hp ?_⟩
  · rw [get?_edited_of_not_added (hadded b.word hbp), hbv, Option.filter_some, if_pos (decide_eq_true hkept)]
  · rcases isSome_of_edited hw with hw | hw
    · rw [hadded w hp] at hw
      cases hw
    · exact hw

/-- Where the longest word is suppressed there is no other: a shorter one would begin it. -/
theorem Compatible.longest?_edited_of_suppressed (h : base.Compatible added suppressed)
    (ha : added.longest? t = none) {b : Entry Text} (hb : base.longest? t = some b)
    (hsup : suppressed b.word ∨ suppressed b.value) :
    (base.edited added suppressed).longest? t = none := by
  obtain ⟨hbp, hbv, hlongest⟩ := longest?_eq_some_iff.1 hb
  refine longest?_eq_none_iff.2 fun w hp => ?_
  rw [get?_edited_of_not_added (longest?_eq_none_iff.1 ha w hp)]
  cases hw : base.get? w with
  | none => rfl
  | some a =>
    have hsome : (base.get? w).isSome := by rw [hw]; rfl
    have hwb : w <+: b.word := List.prefix_of_prefix_length_le hp hbp (hlongest w hp hsome)
    obtain rfl := h.alone w b.word b.value hsome hbv hsup hwb
    rw [hbv] at hw
    cases hw
    exact if_neg fun hkept => (of_decide_eq_true hkept : ¬ _) hsup

/-- The word that is picked under edits is the longest word of the edited dictionary. -/
theorem Compatible.picked?_eq_longest? (h : base.Compatible added suppressed) (t : Text) :
    base.picked? added suppressed t = (base.edited added suppressed).longest? t := by
  cases ho : added.longest? t with
  | some o =>
    rw [h.longest?_edited_of_added ho]
    refine picked?_of_added ho fun b hb => ?_
    obtain ⟨hbp, hbv, -⟩ := longest?_eq_some_iff.1 hb
    rw [h.eq_of_longest? ho (by rw [hbv]; rfl) hbp]
  | none =>
    cases hb : base.longest? t with
    | none => rw [picked?_of_none hb ho, longest?_edited_of_none ho hb]
    | some b =>
      rw [picked?_of_base hb (by simp [ho])]
      split
      · next hsup => exact (h.longest?_edited_of_suppressed ho hb hsup).symm
      · next hkept => exact (longest?_edited_of_kept ho hb hkept).symm

/-! ## Dictionaries of maps -/

theorem get?_ofPairs_toList {m : OrderedMap Text Text} (hm : m.keys.Nodup) {w : Text} (hw : w ≠ []) :
    (ofPairs m.toList).get? w = m.get? w := by
  rw [get?_ofPairs, if_neg hw]
  exact (OrderedMap.lookup_eq_last? hm w).symm

theorem ofPairs_toList_eq (pairs : List (Text × Text)) :
    ofPairs (OrderedMap.ofList pairs).toList = ofPairs pairs := by
  ext w : 2
  by_cases hw : w = []
  · rw [hw, get?_nil, get?_nil]
  · rw [get?_ofPairs_toList (OrderedMap.nodup_keys_ofList pairs) hw, OrderedMap.get?_ofList,
      get?_ofPairs, if_neg hw]

end Dictionary

/-! ## The overlay -/

/-- The words of a map that an overlay leaves, and over them those that it adds. -/
def Overlay.edit (o : Overlay) (words : OrderedMap Text Text) : OrderedMap Text Text :=
  OrderedMap.insertMany ⟨words.toList.filter fun p => !o.suppresses p.1 p.2⟩ o.adds.toList

theorem Dictionary.ofPairs_edit (pairs added : List (Text × Text)) (suppressed : List Text) :
    ofPairs (Overlay.edit { adds := .ofList added, suppressed } (.ofList pairs)).toList =
      (ofPairs pairs).edited (ofPairs added) (· ∈ suppressed) := by
  ext w : 2
  by_cases hw : w = []
  · rw [hw, get?_nil, get?_nil]
  · have hpairs := OrderedMap.nodup_keys_ofList pairs
    have hadded := OrderedMap.nodup_keys_ofList added
    have hedit := OrderedMap.nodup_keys_insertMany (OrderedMap.nodup_keys_filter hpairs fun p =>
      !Overlay.suppresses { adds := .ofList added, suppressed } p.1 p.2) (OrderedMap.ofList added).toList
    rw [Overlay.edit, get?_ofPairs_toList hedit hw, OrderedMap.get?_insertMany,
      ← OrderedMap.get?_eq_last? hadded, OrderedMap.get?_filter hpairs, OrderedMap.get?_ofList,
      OrderedMap.get?_ofList, get?_edited, get?_ofPairs, get?_ofPairs, if_neg hw, if_neg hw]
    congr 2
    funext a
    rw [decide_not]
    congr 1
    exact Bool.eq_iff_iff.2 ((Converter.suppresses_iff (fun _ => Iff.rfl) w a).trans
      (decide_eq_true_iff).symm)

/-- A conversion under an overlay is the conversion by the edited dictionary, where no word gets in
the way of another. -/
theorem Converter.convertWith_eq_convert_edit (v : Variant) (pairs added : List (Text × Text))
    (suppressed : List Text)
    (h : (Dictionary.ofPairs pairs).Compatible (.ofPairs added) (· ∈ suppressed)) (t : Text) :
    (ofPairs v pairs).convertWith { adds := .ofList added, suppressed } t =
      (ofPairs v (Overlay.edit { adds := .ofList added, suppressed } (.ofList pairs)).toList).convert t := by
  have hadded : (Automaton.ofPairs (OrderedMap.ofList added).toList).Reads (.ofPairs added) := by
    rw [← Dictionary.ofPairs_toList_eq]
    exact Automaton.reads_ofPairs _
  have hedited := Automaton.reads_ofPairs
    (Overlay.edit { adds := .ofList added, suppressed } (.ofList pairs)).toList
  rw [Dictionary.ofPairs_edit] at hedited
  rw [convert_eq_rewriteBy hedited, ← funext h.picked?_eq_longest?]
  exact convertFrom_eq_rewriteBy (Automaton.reads_ofPairs pairs) hadded (fun _ => Iff.rfl) _ _ t rfl rfl

def computerWords : List (Text × Text) :=
  [("電腦".toList, "电脑".toList), ("義".toList, "义".toList), ("計".toList, "计".toList)]

/-- An overlay that changes one word, and suppresses another by itself and a third by its result. -/
def computerOverlay : Overlay where
  adds := .ofList [("電腦".toList, "计算机".toList)]
  suppressed := ["義".toList, "计".toList]

theorem Converter.convertWith_eq_convert_edit_computer :
    (Dictionary.ofPairs computerWords).Compatible (.ofPairs [("電腦".toList, "计算机".toList)])
        (· ∈ ["義".toList, "计".toList]) ∧
      (ofPairs .cn computerWords).convertWith computerOverlay "電腦之義".toList =
        (ofPairs .cn (computerOverlay.edit (.ofList computerWords)).toList).convert "電腦之義".toList := by
  have h : (Dictionary.ofPairs computerWords).Compatible (.ofPairs [("電腦".toList, "计算机".toList)])
      (· ∈ ["義".toList, "计".toList]) := Dictionary.compatible_ofPairs (by decide) (by decide)
  exact ⟨h, convertWith_eq_convert_edit .cn computerWords _ _ h "電腦之義".toList⟩

end HanVariants
