import HanVariants.Inference
import HanVariants.Proofs.Converter
import HanVariants.Proofs.Words.Coverage
import Mathlib.Algebra.Order.Field.Rat
import Mathlib.Data.Int.CharZero
import Mathlib.Data.List.MinMax
/-!
# Scores and confidences

The score of a variant is how much of a text the words of its tables cover. The table of a script has
single characters only, whatever the script conversion is, and a region of the script has them all,
so the region covers no less (`score_le_score`). Every score is then within the total, and a
confidence is a share of it. The confidences are all 0 only where there is nothing to judge by.

So confidences compare as the scores do, the other way round, and the list of confidences has first
the region that is told from the scores (`find?_confidences`).
-/

namespace HanVariants

/-! ## The words of the tables -/

namespace Table

theorem ne_nil_of_mem_ofWords {words : List (String × String)} (h : ∀ w ∈ words, w.1 ≠ "")
    {p : Text × Text} (hp : p ∈ ofWords words) : p.1 ≠ [] := by
  obtain ⟨w, hw, rfl⟩ := List.mem_map.1 hp
  exact fun hnil => h w hw (String.toList_eq_nil_iff.1 hnil)

end Table

namespace Variant

theorem ne_empty_of_regionalWords? {v : Variant} {words : List (String × String)}
    (h : v.regionalWords? = some words) : ∀ w ∈ words, w.1 ≠ "" := by
  cases v <;> cases h <;> decide

variable {conv : ScriptConversion}

theorem flatten_tables (conv : ScriptConversion) (v : Variant) :
    (v.tables conv).flatten =
      (v.script?.map (Table.ofScript conv)).getD [] ++ (v.regionalWords?.map Table.ofWords).getD [] := by
  unfold tables
  cases v.script? <;> cases v.regionalWords? <;> simp

/-- No word of the tables is empty. -/
theorem ne_nil_of_mem_tables {v : Variant} {p : Text × Text} (hp : p ∈ (v.tables conv).flatten) :
    p.1 ≠ [] := by
  rw [flatten_tables, List.mem_append] at hp
  rcases hp with hp | hp
  · cases hs : v.script? with
    | none => simp [hs] at hp
    | some s =>
      rw [hs] at hp
      obtain ⟨c, -, hc⟩ := Table.exists_ideograph_of_mem_ofScript hp
      exact hc ▸ List.cons_ne_nil c []
  · cases hw : v.regionalWords? with
    | none => simp [hw] at hp
    | some words =>
      rw [hw] at hp
      exact Table.ne_nil_of_mem_ofWords (ne_empty_of_regionalWords? hw) hp

/-- The words that the built-in converter to a variant replaces. -/
def dictionary (conv : ScriptConversion) (v : Variant) : Dictionary Text :=
  .ofPairs (v.tables conv).flatten

theorem isSome_get?_dictionary {v : Variant} {w : Text} :
    ((v.dictionary conv).get? w).isSome ↔ ∃ p ∈ (v.tables conv).flatten, p.1 = w := by
  unfold dictionary
  rw [Dictionary.isSome_get?_ofPairs, List.mem_map]
  refine and_iff_right_of_imp ?_
  rintro ⟨p, hp, rfl⟩
  exact ne_nil_of_mem_tables hp

/-- The words of a variant without a region are single characters. -/
theorem ofChars_dictionary {v : Variant} (h : v.regionalWords? = none) :
    (v.dictionary conv).OfChars := by
  intro w hw
  obtain ⟨p, hp, rfl⟩ := isSome_get?_dictionary.1 hw
  rw [flatten_tables, h] at hp
  cases hs : v.script? with
  | none => simp [hs] at hp
  | some s =>
    rw [hs] at hp
    obtain ⟨c, -, hc⟩ := Table.exists_ideograph_of_mem_ofScript (by simpa using hp)
    exact ⟨c, hc⟩

end Variant

/-! ## What comes first in a sorted list -/

section Sorted

variable {α β : Type} [LinearOrder β]

/-- In a list sorted by `f`, the highest first, the first element that meets a test is the first of
the highest that meet it. -/
theorem find?_mergeSort_eq_argmax (f : α → β) (p : α → Bool) (l : List α) :
    (l.mergeSort fun a b => f b ≤ f a).find? p = (l.filter p).argmax f := by
  have htrans : ∀ a b c : α, decide (f b ≤ f a) → decide (f c ≤ f b) → decide (f c ≤ f a) := by
    intro a b c hab hbc
    exact decide_eq_true ((of_decide_eq_true hbc).trans (of_decide_eq_true hab))
  have htotal : ∀ a b : α, decide (f b ≤ f a) || decide (f a ≤ f b) := fun a b => by
    simpa using le_total (f b) (f a)
  induction l with
  | nil => simp
  | cons a l ih =>
    -- `a` goes right behind those of the others that are higher
    obtain ⟨l₁, l₂, hsort, hrest, hhigher⟩ := List.mergeSort_cons htrans htotal a l
    have hsorted := List.pairwise_mergeSort htrans htotal (a :: l)
    rw [hsort] at hsorted
    rw [hrest, List.find?_append] at ih
    rw [hsort, List.find?_append]
    by_cases ha : p a
    · rw [List.filter_cons_of_pos ha, List.argmax_cons, ← ih, List.find?_cons_of_pos ha]
      cases h₁ : l₁.find? p with
      | some b =>
        have hlt : f a < f b := by simpa using hhigher b (List.mem_of_find?_eq_some h₁)
        simp [hlt]
      | none =>
        cases h₂ : l₂.find? p with
        | none => rfl
        | some b =>
          have hle : f b ≤ f a := by
            have htail := (List.pairwise_append.1 hsorted).2.1
            exact of_decide_eq_true ((List.pairwise_cons.1 htail).1 b (List.mem_of_find?_eq_some h₂))
          simp [hle]
    · rw [List.filter_cons_of_neg ha, List.find?_cons_of_neg ha, ih]

end Sorted

/-! ## Scores -/

namespace Inference

variable (b : Builtin)

theorem score_eq_coveredBy (t : Text) (v : Variant) :
    score b t v = coveredBy (v.dictionary b.conversion).longest? t := by
  unfold score
  rw [Builtin.converter_eq]
  exact Converter.countMatched_eq_coveredBy (Automaton.reads_ofPairs _) t

/-- A region scores no less than its script. -/
theorem score_le_score {u v : Variant} (hu : u.regionalWords? = none) (hs : u.script? = v.script?)
    (t : Text) : score b t u ≤ score b t v := by
  rw [score_eq_coveredBy, score_eq_coveredBy]
  refine (Variant.ofChars_dictionary hu).coveredBy_le (fun c hc => ?_) t
  obtain ⟨p, hp, hpc⟩ := Variant.isSome_get?_dictionary.1 hc
  refine Variant.isSome_get?_dictionary.2 ⟨p, ?_, hpc⟩
  rw [Variant.flatten_tables, hu, hs, Option.map_none, Option.getD_none, List.append_nil] at hp
  rw [Variant.flatten_tables]
  exact List.mem_append_left _ hp

theorem score_eq_zero_iff (t : Text) (v : Variant) :
    score b t v = 0 ↔ ∀ p ∈ (v.tables b.conversion).flatten, ¬ p.1 <:+: t := by
  rw [score_eq_coveredBy, Dictionary.coveredBy_eq_zero_iff]
  constructor
  · intro h p hp
    exact h p.1 (Variant.isSome_get?_dictionary.2 ⟨p, hp, rfl⟩)
  · intro h w hw
    obtain ⟨p, hp, rfl⟩ := Variant.isSome_get?_dictionary.1 hw
    exact h p hp

theorem score_hans_le_cn (t : Text) : score b t .hans ≤ score b t .cn := by
  apply score_le_score <;> rfl

theorem score_hant_le_tw (t : Text) : score b t .hant ≤ score b t .tw := by
  apply score_le_score <;> rfl

theorem score_hant_le_hk (t : Text) : score b t .hant ≤ score b t .hk := by
  apply score_le_score <;> rfl

/-- Every score is within the total. -/
theorem score_le_total (t : Text) {v : Variant} (hv : v ∈ candidates) :
    (score b t v : Int) ≤ total b t := by
  have hcn := score_hans_le_cn b t
  have htw := score_hant_le_tw b t
  have hhk := score_hant_le_hk b t
  unfold total
  simp only [candidates, List.mem_cons, List.not_mem_nil, or_false] at hv
  rcases hv with rfl | rfl | rfl | rfl | rfl <;> omega

/-- Where every score is the total, there is nothing to score: the regions and scripts together would
make more than one total. -/
theorem forall_score_eq_total_iff (t : Text) :
    (∀ v ∈ candidates, (score b t v : Int) = total b t) ↔ ∀ v ∈ candidates, score b t v = 0 := by
  have hcn := score_hans_le_cn b t
  have htw := score_hant_le_tw b t
  have hhk := score_hant_le_hk b t
  simp only [candidates, total, List.forall_mem_cons, List.not_mem_nil, false_implies, implies_true,
    and_true]
  omega

/-! ## Confidences -/

namespace Confidence

variable {c : Confidence}

theorem value_of_within (h : (c.score : Int) ≤ c.total) :
    c.value = if c.total = 0 then 0 else 1 - (c.score : Rat) / c.total := by
  have hscore : (0 : Int) ≤ c.score := Int.natCast_nonneg _
  unfold value
  rw [min_eq_left h]
  by_cases hz : c.total = 0
  · rw [if_pos hz, if_pos hz.le]
  · rw [if_neg hz, if_neg (by omega), Int.cast_natCast]

theorem value_mem_unit (h : (c.score : Int) ≤ c.total) : 0 ≤ c.value ∧ c.value ≤ 1 := by
  rw [value_of_within h]
  have hscore : (0 : Rat) ≤ c.score := Nat.cast_nonneg _
  have hle : (c.score : Rat) ≤ c.total := by exact_mod_cast h
  split
  · exact ⟨le_refl 0, zero_le_one⟩
  · constructor
    · exact sub_nonneg.2 (div_le_one_of_le₀ hle (hscore.trans hle))
    · exact sub_le_self 1 (div_nonneg hscore (hscore.trans hle))

/-- Nothing speaks for a variant just where its score is the total. -/
theorem value_eq_zero_iff (h : (c.score : Int) ≤ c.total) : c.value = 0 ↔ (c.score : Int) = c.total := by
  rw [value_of_within h]
  split
  · next hz =>
    have hscore : (c.score : Int) = c.total := by omega
    exact iff_of_true rfl hscore
  · next hz =>
    have hne : (c.total : Rat) ≠ 0 := Int.cast_ne_zero.2 hz
    rw [sub_eq_zero, eq_comm, div_eq_one_iff_eq hne]
    exact_mod_cast Iff.rfl

end Confidence

theorem mem_confidences {b : Builtin} {t : Text} {c : Confidence} :
    c ∈ confidences b t ↔ ∃ v ∈ candidates, c = ⟨v, score b t v, total b t⟩ := by
  unfold confidences
  rw [List.mem_mergeSort, List.mem_map]
  exact exists_congr fun v => and_congr_right fun _ => eq_comm

/-- The scores of the scripts are within those of their regions, and every score is within the total,
so that no score is cut off and a confidence is between 0 and 1. All of them are 0 just where no word
of any candidate stands in the text. -/
theorem confidences_within_total (t : Text) :
    (score b t .hans ≤ score b t .cn ∧ score b t .hant ≤ score b t .tw ∧
      score b t .hant ≤ score b t .hk) ∧
    0 ≤ total b t ∧
    (∀ v ∈ candidates, (score b t v : Int) ≤ total b t) ∧
    (∀ c ∈ confidences b t, min (c.score : Int) c.total = c.score ∧ 0 ≤ c.value ∧ c.value ≤ 1) ∧
    ((∀ c ∈ confidences b t, c.value = 0) ↔
      ∀ v ∈ candidates, ∀ p ∈ (v.tables b.conversion).flatten, ¬ p.1 <:+: t) := by
  have hwithin : ∀ c ∈ confidences b t, (c.score : Int) ≤ c.total := by
    intro c hc
    obtain ⟨v, hv, rfl⟩ := mem_confidences.1 hc
    exact score_le_total b t hv
  have htotal : 0 ≤ total b t := (Int.natCast_nonneg _).trans (score_le_total b t (v := .cn) (by decide))
  have hzero : (∀ c ∈ confidences b t, c.value = 0) ↔
      ∀ v ∈ candidates, (score b t v : Int) = total b t := by
    constructor
    · intro h v hv
      have hc : ⟨v, score b t v, total b t⟩ ∈ confidences b t := mem_confidences.2 ⟨v, hv, rfl⟩
      exact (Confidence.value_eq_zero_iff (hwithin _ hc)).1 (h _ hc)
    · intro h c hc
      obtain ⟨v, hv, rfl⟩ := mem_confidences.1 hc
      exact (Confidence.value_eq_zero_iff (hwithin _ hc)).2 (h v hv)
  refine ⟨⟨score_hans_le_cn b t, score_hant_le_tw b t, score_hant_le_hk b t⟩, htotal,
    fun v hv => score_le_total b t hv, fun c hc => ?_, ?_⟩
  · exact ⟨min_eq_left (hwithin c hc), Confidence.value_mem_unit (hwithin c hc)⟩
  · rw [hzero, forall_score_eq_total_iff]
    exact forall₂_congr fun v _ => score_eq_zero_iff b t v

/-! ## Which region comes first -/

namespace Confidence

/-- Of two confidences with one total, that of the lower score is the higher. -/
theorem value_lt_value_iff {a b : Confidence} (ha : (a.score : Int) ≤ a.total)
    (hb : (b.score : Int) ≤ b.total) (htotal : a.total = b.total) :
    a.value < b.value ↔ b.score < a.score := by
  rw [value_of_within ha, value_of_within hb, htotal]
  by_cases hz : b.total = 0
  · rw [if_pos hz, if_pos hz]
    exact iff_of_false (lt_irrefl _) (by omega)
  · have hpos : (0 : Rat) < b.total := by
      have : 0 < b.total := by omega
      exact_mod_cast this
    rw [if_neg hz, if_neg hz, sub_lt_sub_iff_left, div_lt_div_iff_of_pos_right hpos, Nat.cast_lt]

end Confidence

/-- The confidence of a variant in a text. -/
def confidence (b : Builtin) (t : Text) (v : Variant) : Confidence := ⟨v, score b t v, total b t⟩

theorem value_confidence_lt_iff (t : Text) {u v : Variant} (hu : u ∈ candidates) (hv : v ∈ candidates) :
    (confidence b t u).value < (confidence b t v).value ↔ score b t v < score b t u :=
  Confidence.value_lt_value_iff (score_le_total b t hu) (score_le_total b t hv) rfl

/-- Of some candidates, the first of the highest confidence is the first of the lowest score. -/
theorem argmax_map_confidence (t : Text) {vs : List Variant} (hvs : ∀ v ∈ vs, v ∈ candidates) :
    (vs.map (confidence b t)).argmax Confidence.value = (vs.argmin (score b t)).map (confidence b t) := by
  induction vs with
  | nil => rfl
  | cons v vs ih =>
    obtain ⟨hv, hrest⟩ := List.forall_mem_cons.1 hvs
    rw [List.map_cons, List.argmax_cons, ih hrest, List.argmin_cons]
    cases hmin : vs.argmin (score b t) with
    | none => rfl
    | some u =>
      have hu : u ∈ candidates := hrest u (List.argmin_mem hmin)
      simp only [Option.map_some, value_confidence_lt_iff b t hv hu, apply_ite (Option.map (confidence b t))]

/-- The variants of the regions that a text is told by. -/
def regions : List Variant := [.cn, .tw, .hk]

/-- The region of a text is the first of those with the lowest score. -/
theorem argmin_regions (t : Text) : regions.argmin (score b t) = some (region b t) := by
  unfold regions region
  simp only [List.argmin_cons, List.argmin_nil, Bool.and_eq_true, decide_eq_true_eq]
  by_cases hhk : score b t .hk < score b t .tw
  · rw [if_pos hhk, if_neg (by omega : ¬ score b t .tw ≤ score b t .hk)]
    by_cases hcn : score b t .hk < score b t .cn
    · exact (if_pos hcn).trans (by rw [if_neg (by omega)])
    · exact (if_neg hcn).trans (by rw [if_pos (by omega)])
  · rw [if_neg hhk, if_pos (by omega : score b t .tw ≤ score b t .hk)]
    by_cases hcn : score b t .tw < score b t .cn
    · exact (if_pos hcn).trans (by rw [if_neg (by omega)])
    · exact (if_neg hcn).trans (by rw [if_pos (by omega)])

/-- The first of the regions among the confidences is the region of the text. -/
theorem find?_confidences (t : Text) :
    ((confidences b t).find? fun c => c.variant ∈ regions).map (·.variant) = some (region b t) := by
  have hregions : (candidates.map (confidence b t)).filter (fun c => c.variant ∈ regions) =
      regions.map (confidence b t) := rfl
  have hfirst : (confidences b t).find? (fun c => c.variant ∈ regions) =
      some (confidence b t (region b t)) := by
    change ((candidates.map (confidence b t)).mergeSort _).find? _ = _
    rw [find?_mergeSort_eq_argmax Confidence.value, hregions, argmax_map_confidence b t (by decide),
      argmin_regions]
    rfl
  rw [hfirst]
  rfl

end Inference

end HanVariants
