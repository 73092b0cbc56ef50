import HanVariants.Proofs.Converter
/-!
# Texts converted in two parts

A text can be converted in two parts where no word lies across the boundary between them
(`Dictionary.Spans`). A reading of the whole looks beyond the boundary, but what it picks before it
is what a reading of the first part alone picks there (`longest?_append`), and it picks nothing that
goes beyond. So it comes to the boundary just when the first part is read, and goes on with the
second one (`scanBy_append`).
-/

namespace HanVariants

variable {α : Type}

/-! ## Words across a boundary -/

namespace Dictionary

/-- A word of the dictionary lies across the boundary between two texts: it begins in the first and
ends in the second, with characters of both. -/
def Spans (d : Dictionary α) (a b : Text) : Prop :=
  ∃ x y, x ≠ [] ∧ y ≠ [] ∧ x <:+ a ∧ y <+: b ∧ (d.get? (x ++ y)).isSome

/-- The words of pairs lie across no boundary where none of them is put together there. -/
theorem not_spans_ofPairs {pairs : List (Text × α)} {a b : Text}
    (h : ∀ x ∈ a.tails, ∀ y ∈ b.inits, x ≠ [] → y ≠ [] → x ++ y ∉ pairs.map (·.1)) :
    ¬ (ofPairs pairs).Spans a b := by
  rintro ⟨x, y, hx, hy, hxa, hyb, hw⟩
  have hmem := h x ((List.mem_tails ..).2 hxa) y ((List.mem_inits ..).2 hyb) hx hy
  rw [get?_ofPairs, OrderedMap.last?_eq_none_iff.2 hmem, ite_self] at hw
  cases hw

variable {d : Dictionary α} {a b : Text}

/-- A word across the boundary of the end of a text lies across that of the text. -/
theorem Spans.of_suffix {a' : Text} (h : d.Spans a' b) (ha : a' <:+ a) : d.Spans a b := by
  obtain ⟨x, y, hx, hy, hxa, hyb, hw⟩ := h
  exact ⟨x, y, hx, hy, hxa.trans ha, hyb, hw⟩

theorem isPrefix_of_not_spans (h : ¬ d.Spans a b) (ha : a ≠ []) {w : Text} (hw : (d.get? w).isSome)
    (hp : w <+: a ++ b) : w <+: a := by
  rcases List.prefix_or_prefix_of_prefix hp (List.prefix_append a b) with hwa | ⟨y, rfl⟩
  · exact hwa
  · -- the word has all of the first text, hence nothing of the second
    have hyb : y <+: b := (List.prefix_append_right_inj a).1 hp
    by_cases hy : y = []
    · rw [hy, List.append_nil]
    · exact absurd ⟨a, y, ha, hy, List.suffix_rfl, hyb, hw⟩ h

theorem longest?_append (h : ¬ d.Spans a b) (ha : a ≠ []) : d.longest? (a ++ b) = d.longest? a := by
  cases he : d.longest? a with
  | none =>
    rw [longest?_eq_none_iff] at he ⊢
    intro w hp
    by_contra hw
    have hwa := isPrefix_of_not_spans h ha (Option.isSome_iff_ne_none.2 hw) hp
    exact hw (he w hwa)
  | some e =>
    obtain ⟨hpre, hval, hlongest⟩ := longest?_eq_some_iff.1 he
    refine longest?_eq_some_iff.2 ⟨hpre.trans (List.prefix_append a b), hval, ?_⟩
    intro w hp hw
    exact hlongest w (isPrefix_of_not_spans h ha hw hp) hw

theorem picked?_append {base added : Dictionary Text} {suppressed : Text → Prop}
    [DecidablePred suppressed] (hbase : ¬ base.Spans a b) (hadded : ¬ added.Spans a b) (ha : a ≠ []) :
    picked? base added suppressed (a ++ b) = picked? base added suppressed a := by
  unfold picked?
  rw [longest?_append hbase ha, longest?_append hadded ha]

theorem isPrefix_of_picked? {base added : Dictionary Text} {suppressed : Text → Prop}
    [DecidablePred suppressed] {t : Text} {e : Entry Text}
    (h : picked? base added suppressed t = some e) : e.word <+: t := by
  have hkept : ∀ b, (if suppressed b.word ∨ suppressed b.value then none else some b) = some e → b = e := by
    intro b hb
    split at hb
    · cases hb
    · exact Option.some.inj hb
  unfold picked? at h
  split at h
  · cases h
  · next b _ hb =>
    obtain rfl := hkept b h
    exact (longest?_eq_some_iff.1 hb).1
  · next o ho _ =>
    cases h
    exact (longest?_eq_some_iff.1 ho).1
  · next o b ho hb =>
    split at h
    · cases h
      exact (longest?_eq_some_iff.1 ho).1
    · obtain rfl := hkept b h
      exact (longest?_eq_some_iff.1 hb).1

end Dictionary

/-! ## Reading on from the boundary -/

/-- A text is read in two parts, where what is picked in the first part lies in it and does not
depend on the second one. -/
theorem scanBy_append {pick : Text → Option (Entry α)} (hpick : ∀ t e, pick t = some e → e.word <+: t)
    {a b : Text} (h : ∀ a', a' ≠ [] → a' <:+ a → pick (a' ++ b) = pick a') :
    scanBy pick (a ++ b) = scanBy pick a ++ scanBy pick b := by
  fun_induction scanBy pick a with
  | case1 => rfl
  | case2 c a hnone ih =>
    have hc : pick (c :: (a ++ b)) = none := (h (c :: a) (List.cons_ne_nil c a) List.suffix_rfl).trans hnone
    have hrest := ih fun a' hne ha' => h a' hne (ha'.trans (List.suffix_cons c a))
    rw [List.cons_append, scanBy_of_none hc, hrest]
    rfl
  | case3 c a e hsome ih =>
    have hc : pick (c :: a ++ b) = some e := (h (c :: a) (List.cons_ne_nil c a) List.suffix_rfl).trans hsome
    have hrest := ih fun a' hne ha' => h a' hne (ha'.trans (List.drop_suffix _ _))
    -- the word ends before the boundary, so what is behind it begins there
    have hdrop : (c :: a ++ b).drop e.word.length = (c :: a).drop e.word.length ++ b :=
      List.drop_append_of_le_length (hpick _ _ hsome).length_le
    have hne : c :: a ++ b ≠ [] := List.cons_ne_nil c (a ++ b)
    rw [scanBy_of_some hne hc, hdrop, hrest]
    rfl

theorem rewriteBy_append {pick : Text → Option (Entry Text)} {a b : Text}
    (h : scanBy pick (a ++ b) = scanBy pick a ++ scanBy pick b) :
    rewriteBy pick (a ++ b) = rewriteBy pick a ++ rewriteBy pick b := by
  unfold rewriteBy
  rw [h, List.flatMap_append]

theorem coveredBy_append {pick : Text → Option (Entry α)} {a b : Text}
    (h : scanBy pick (a ++ b) = scanBy pick a ++ scanBy pick b) :
    coveredBy pick (a ++ b) = coveredBy pick a + coveredBy pick b := by
  unfold coveredBy
  rw [h, List.flatMap_append, List.length_append]

theorem Dictionary.scanBy_longest?_append {d : Dictionary α} {a b : Text} (h : ¬ d.Spans a b) :
    scanBy d.longest? (a ++ b) = scanBy d.longest? a ++ scanBy d.longest? b := by
  apply scanBy_append
  · intro t e he
    exact (longest?_eq_some_iff.1 he).1
  · intro a' hne ha'
    exact longest?_append (fun hs => h (hs.of_suffix ha')) hne

theorem Dictionary.scanBy_picked?_append {base added : Dictionary Text} {suppressed : Text → Prop}
    [DecidablePred suppressed] {a b : Text} (hbase : ¬ base.Spans a b) (hadded : ¬ added.Spans a b) :
    scanBy (base.picked? added suppressed) (a ++ b) =
      scanBy (base.picked? added suppressed) a ++ scanBy (base.picked? added suppressed) b := by
  apply scanBy_append
  · intro t e he
    exact isPrefix_of_picked? he
  · intro a' hne ha'
    exact picked?_append (fun hs => hbase (hs.of_suffix ha')) (fun hs => hadded (hs.of_suffix ha')) hne

/-! ## Converting -/

/-- Where no word of the dictionary lies across the boundary, two texts are converted one by one and
the words replaced add up; under an overlay so too, if no word that it adds lies across either. -/
theorem Converter.convert_append_of_not_spans (v : Variant) (pairs : List (Text × Text)) (a b : Text)
    (h : ¬ (Dictionary.ofPairs pairs).Spans a b) :
    let c := ofPairs v pairs
    c.convert (a ++ b) = c.convert a ++ c.convert b ∧
      c.countMatched (a ++ b) = c.countMatched a + c.countMatched b ∧
      ∀ (adds : OrderedMap Text Text) (suppressed : List Text),
        ¬ (Dictionary.ofPairs adds.toList).Spans a b →
          c.convertWith { adds, suppressed } (a ++ b) =
            c.convertWith { adds, suppressed } a ++ c.convertWith { adds, suppressed } b := by
  intro c
  have hc : c.automaton.Reads (.ofPairs pairs) := Automaton.reads_ofPairs pairs
  have hscan := Dictionary.scanBy_longest?_append h
  refine ⟨?_, ?_, ?_⟩
  · simp only [convert_eq_rewriteBy hc]
    exact rewriteBy_append hscan
  · simp only [countMatched_eq_coveredBy hc]
    exact coveredBy_append hscan
  · intro adds suppressed hadded
    have hwith : ∀ t, c.convertWith { adds, suppressed } t =
        rewriteBy (Dictionary.picked? (.ofPairs pairs) (.ofPairs adds.toList) (· ∈ suppressed)) t :=
      fun t => convertFrom_eq_rewriteBy hc (Automaton.reads_ofPairs adds.toList) (fun _ => Iff.rfl) _ _ t
        rfl rfl
    rw [hwith, hwith, hwith]
    exact rewriteBy_append (Dictionary.scanBy_picked?_append h hadded)

/-- The word before the boundary begins a longer one that does not stand there. -/
theorem Converter.convert_append_of_not_spans_computer :
    let pairs := [("電腦".toList, "电脑".toList), ("電腦病毒".toList, "计算机病毒".toList)]
    let adds : OrderedMap Text Text := ⟨[("病人".toList, "患者".toList)]⟩
    let c := ofPairs .cn pairs
    let (a, b) := ("用電腦".toList, "病人電腦".toList)
    ¬ (Dictionary.ofPairs pairs).Spans a b ∧ ¬ (Dictionary.ofPairs adds.toList).Spans a b ∧
      c.convert (a ++ b) = c.convert a ++ c.convert b ∧
      c.countMatched (a ++ b) = c.countMatched a + c.countMatched b ∧
      c.convertWith { adds, suppressed := ["電腦".toList] } (a ++ b) =
        c.convertWith { adds, suppressed := ["電腦".toList] } a ++
          c.convertWith { adds, suppressed := ["電腦".toList] } b := by
  intro pairs adds c
  have hbase : ¬ (Dictionary.ofPairs pairs).Spans "用電腦".toList "病人電腦".toList :=
    Dictionary.not_spans_ofPairs (by decide)
  have hadded : ¬ (Dictionary.ofPairs adds.toList).Spans "用電腦".toList "病人電腦".toList :=
    Dictionary.not_spans_ofPairs (by decide)
  obtain ⟨hconvert, hcount, hwith⟩ := convert_append_of_not_spans .cn pairs _ _ hbase
  exact ⟨hbase, hadded, hconvert, hcount, hwith adds _ hadded⟩

end HanVariants
