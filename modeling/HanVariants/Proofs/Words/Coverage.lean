import HanVariants.Proofs.Words.Dictionary
/-!
# How much of a text is covered by words

A reading covers every character that is a word by itself: it takes the character, or it takes a
longer word with the character in it (`countP_le_coveredBy`). More words can make it take less of a
longer word, but never leave out such a character. So a dictionary of single characters covers no more
than any dictionary that has them all (`OfChars.coveredBy_le`). Nothing is covered only where no word
stands (`coveredBy_eq_zero_iff`).
-/

namespace HanVariants

variable {α β : Type}

section Covered

variable {pick : Text → Option (Entry α)}

@[simp]
theorem coveredBy_nil : coveredBy pick [] = 0 := by
  unfold coveredBy
  rw [scanBy_nil]
  rfl

theorem coveredBy_of_none {c : Char} {t : Text} (h : pick (c :: t) = none) :
    coveredBy pick (c :: t) = coveredBy pick t := by
  unfold coveredBy
  rw [scanBy_of_none h]
  rfl

theorem coveredBy_of_some {t : Text} {e : Entry α} (ht : t ≠ []) (h : pick t = some e) :
    coveredBy pick t = e.word.length + coveredBy pick (t.drop e.word.length) := by
  unfold coveredBy
  rw [scanBy_of_some ht h, List.flatMap_cons, List.length_append]
  rfl

end Covered

namespace Dictionary

variable {d : Dictionary α}

theorem isSome_get?_ofPairs {pairs : List (Text × α)} {w : Text} :
    ((ofPairs pairs).get? w).isSome ↔ w ≠ [] ∧ w ∈ pairs.map (·.1) := by
  rw [get?_ofPairs]
  split
  · next hw => simp [hw]
  · next hw =>
    rw [Option.isSome_iff_ne_none, Ne, OrderedMap.last?_eq_none_iff, not_not]
    exact (and_iff_right hw).symm

/-- The longest word of a text, where there is one, is followed by the rest of the text. -/
theorem eq_append_drop_of_longest? {t : Text} {e : Entry α} (h : d.longest? t = some e) :
    t = e.word ++ t.drop e.word.length := by
  obtain ⟨s, hs⟩ := (longest?_eq_some_iff.1 h).1
  rw [← hs, List.drop_left]

/-! ## Single characters -/

/-- The character is a word. -/
def hasChar (d : Dictionary α) (c : Char) : Bool := (d.get? [c]).isSome

/-- Every word is a single character. -/
def OfChars (d : Dictionary α) : Prop := ∀ w, (d.get? w).isSome → ∃ c, w = [c]

theorem not_hasChar_of_longest? {c : Char} {t : Text} (h : d.longest? (c :: t) = none) :
    ¬ d.hasChar c = true := by
  unfold hasChar
  rw [longest?_eq_none_iff.1 h [c] (List.prefix_append [c] t)]
  exact Bool.false_ne_true

/-- A reading covers every character that is a word. -/
theorem countP_le_coveredBy (d : Dictionary α) (t : Text) :
    t.countP d.hasChar ≤ coveredBy d.longest? t := by
  fun_induction scanBy d.longest? t with
  | case1 => simp
  | case2 c t hnone ih =>
    rw [coveredBy_of_none hnone, List.countP_cons_of_neg (not_hasChar_of_longest? hnone)]
    exact ih
  | case3 c t e hsome ih =>
    rw [coveredBy_of_some (List.cons_ne_nil c t) hsome]
    calc (c :: t).countP d.hasChar
        = e.word.countP d.hasChar + ((c :: t).drop e.word.length).countP d.hasChar := by
          conv_lhs => rw [eq_append_drop_of_longest? hsome, List.countP_append]
      _ ≤ e.word.length + coveredBy d.longest? ((c :: t).drop e.word.length) :=
          Nat.add_le_add List.countP_le_length ih

/-- Where all words are single characters, nothing else is covered. -/
theorem OfChars.coveredBy_eq (h : d.OfChars) (t : Text) :
    coveredBy d.longest? t = t.countP d.hasChar := by
  fun_induction scanBy d.longest? t with
  | case1 => simp
  | case2 c t hnone ih =>
    rw [coveredBy_of_none hnone, List.countP_cons_of_neg (not_hasChar_of_longest? hnone)]
    exact ih
  | case3 c t e hsome ih =>
    obtain ⟨hpre, hval, -⟩ := longest?_eq_some_iff.1 hsome
    have hword : (d.get? e.word).isSome := Option.isSome_of_eq_some hval
    obtain ⟨c', hc'⟩ := h e.word hword
    -- the word taken is the character that stands there
    obtain rfl : c' = c := by
      rw [hc'] at hpre
      exact (List.cons_prefix_cons.1 hpre).1
    rw [hc'] at ih hword
    rw [coveredBy_of_some (List.cons_ne_nil c' t) hsome, hc', ih,
      List.countP_cons_of_pos (p := d.hasChar) hword, List.length_singleton, Nat.add_comm]
    rfl

/-- A dictionary of single characters covers no more than one that has them all. -/
theorem OfChars.coveredBy_le {d' : Dictionary β} (h : d.OfChars) (hd : ∀ c, d.hasChar c → d'.hasChar c)
    (t : Text) : coveredBy d.longest? t ≤ coveredBy d'.longest? t :=
  calc coveredBy d.longest? t = t.countP d.hasChar := h.coveredBy_eq t
    _ ≤ t.countP d'.hasChar := List.countP_mono_left fun c _ => hd c
    _ ≤ coveredBy d'.longest? t := d'.countP_le_coveredBy t

/-! ## Nothing covered -/

/-- Nothing is covered just where no word stands in the text. -/
theorem coveredBy_eq_zero_iff (d : Dictionary α) (t : Text) :
    coveredBy d.longest? t = 0 ↔ ∀ w, (d.get? w).isSome → ¬ w <:+: t := by
  fun_induction scanBy d.longest? t with
  | case1 =>
    refine iff_of_true coveredBy_nil fun w hw hi => ?_
    rw [List.infix_nil.1 hi, d.get?_nil] at hw
    cases hw
  | case2 c t hnone ih =>
    rw [coveredBy_of_none hnone, ih]
    refine forall₂_congr fun w hw => not_congr ?_
    rw [List.infix_cons_iff]
    refine (or_iff_right fun hp => ?_).symm
    rw [longest?_eq_none_iff.1 hnone w hp] at hw
    cases hw
  | case3 c t e hsome ih =>
    obtain ⟨hpre, hval, -⟩ := longest?_eq_some_iff.1 hsome
    rw [coveredBy_of_some (List.cons_ne_nil c t) hsome]
    refine iff_of_false ?_ fun h => h e.word (Option.isSome_of_eq_some hval) hpre.isInfix
    have := List.length_pos_iff.2 e.word_ne_nil
    omega

end Dictionary

end HanVariants
