import HanVariants.Proofs.Rule.Heading
import HanVariants.Proofs.Rule.Items
/-!
# The pieces of a rule

A rule is cut at its separators, the `;` that have an opening behind them, and each piece after the
first is what stands behind one of them (`mem_tail_pieces_iff`). An opening need not be a heading: its
source may hold a colon or an arrow, and its code may have a character that folds to a letter but is
none in a code. A piece behind such a separator is no item, so the whole rule is none. All pieces
after the first are read just where every separator has a heading behind it, and then the first piece
alone decides about the rule (`forall_tail_pieces_read_iff`).
-/

namespace HanVariants

open Text

namespace Rule

/-! ## Cuts -/

/-- The start of a text up to its next `;` is in the first piece. -/
theorem isPrefix_head_pieces {p t piece : Text} {rest : List Text} (hp : ';' ∉ p) (hpre : p <+: t)
    (h : pieces t = piece :: rest) : p <+: piece := by
  obtain ⟨s, rfl⟩ := hpre
  obtain ⟨piece', rest', hs⟩ := exists_pieces_eq_cons s
  rw [pieces_append_of_not_mem hp hs] at h
  cases h
  exact List.prefix_append p piece'

theorem head_pieces_isPrefix {t piece : Text} {rest : List Text} (h : pieces t = piece :: rest) :
    piece <+: t := by
  induction t generalizing piece rest with
  | nil =>
    cases h
    exact List.prefix_rfl
  | cons c t ih =>
    obtain ⟨piece', rest', ht⟩ := exists_pieces_eq_cons t
    rw [pieces, ht] at h
    split at h
    · cases h
      exact List.nil_prefix
    · cases h
      exact List.cons_prefix_cons.2 ⟨rfl, ih ht⟩

/-- The pieces after the first are those that stand behind a separator. -/
theorem mem_tail_pieces_iff {t piece : Text} :
    piece ∈ (pieces t).tail ↔
      ∃ s rest, ';' :: s <:+ t ∧ beginsItem (dropBlanks s) = true ∧ pieces s = piece :: rest := by
  constructor
  · intro h
    induction t with
    | nil => cases h
    | cons c t ih =>
      obtain ⟨piece', rest', ht⟩ := exists_pieces_eq_cons t
      have hrest : piece ∈ rest' → ∃ s rest, ';' :: s <:+ c :: t ∧ beginsItem (dropBlanks s) = true ∧
          pieces s = piece :: rest := by
        intro hmem
        rw [ht] at ih
        obtain ⟨s, rest, hs, hbegins, hpieces⟩ := ih hmem
        exact ⟨s, rest, hs.trans (List.suffix_cons c t), hbegins, hpieces⟩
      rw [pieces, ht] at h
      split at h
      · next hcut =>
        rw [Bool.and_eq_true, decide_eq_true_eq] at hcut
        rcases List.mem_cons.1 h with rfl | h
        · exact ⟨t, rest', hcut.1 ▸ List.suffix_rfl, hcut.2, ht⟩
        · exact hrest h
      · exact hrest h
  · rintro ⟨s, rest, ⟨a, rfl⟩, hbegins, hs⟩
    obtain ⟨first, others, ha⟩ := exists_pieces_eq_cons a
    rw [pieces_append_separator hbegins, ha, hs]
    simp

/-! ## Pieces that are read -/

/-- Where a separator has a heading behind it, the piece there is read, and only there. -/
theorem readItem_piece_iff {s piece : Text} {rest : List Text} (hbegins : beginsItem (dropBlanks s) = true)
    (hs : pieces s = piece :: rest) :
    (∃ item?, readItem piece = .ok item?) ↔ ∃ v head, Heading v head ∧ head ++ [':'] <+: s := by
  obtain ⟨p, hp, hpre⟩ := beginsItem_dropBlanks_iff.1 hbegins
  obtain ⟨q, rfl⟩ := hp.exists_concat
  have hcolon : ':' ∈ piece := (isPrefix_head_pieces hp.not_mem hpre hs).mem (by simp)
  rw [readItem_eq_ok_iff hcolon]
  refine exists_congr fun v => exists_congr fun head => and_congr_right fun hhead => ⟨?_, ?_⟩
  · intro h
    exact h.trans (head_pieces_isPrefix hs)
  · intro h
    -- the heading ends with the first colon, which is in the opening, so no `;` is in it
    have hopening : head ++ [':'] <+: q ++ [':'] :=
      isPrefix_concat_of_mem hhead.not_mem_colon h hpre (by simp)
    exact isPrefix_head_pieces (fun hm => hp.not_mem (hopening.mem hm)) h hs

theorem readItems_eq_error {t : Text} {e : RuleError} (h : readItems t = .error e) :
    (pieces (body t)).mapM readItem = .error e := by
  unfold readItems at h
  cases hread : (pieces (body t)).mapM readItem with
  | error e' =>
    rw [hread] at h
    cases h
    rfl
  | ok read =>
    rw [hread] at h
    cases h

/-- An item in the first piece makes a rule, if the other pieces are read. -/
theorem exists_parse {t first : Text} {rest : List Text} {item : Item} (ht : pieces (body t) = first :: rest)
    (hfirst : readItem first = .ok (some item)) (hrest : ∀ piece ∈ rest, ∃ item?, readItem piece = .ok item?) :
    ∃ r, parse t = .ok r := by
  obtain ⟨read, hread⟩ := exists_mapM_eq_ok hrest
  have hitems : readItems t = .ok (item :: read.filterMap id) := by
    refine readItems_eq_ok_iff.2 ⟨some item :: read, ?_, rfl⟩
    rw [ht]
    exact .cons hfirst (mapM_eq_ok_iff.1 hread)
  exact ⟨_, parse_eq_ok_iff.2 ⟨_, hitems, List.cons_ne_nil _ _, rfl⟩⟩

/-- The pieces after the first are all read just where every `;` with an opening behind it has a
heading behind it. Then an error can only come from the first piece, and an item there makes a rule. -/
theorem forall_tail_pieces_read_iff (t : Text) :
    ((∀ piece ∈ (pieces (body t)).tail, ∃ item?, readItem piece = .ok item?) ↔
      ∀ s p, ';' :: s <:+ body t → Opening p → p <+: s → ∃ v head, Heading v head ∧ head ++ [':'] <+: s) ∧
    ((∀ piece ∈ (pieces (body t)).tail, ∃ item?, readItem piece = .ok item?) →
      ∀ first rest, pieces (body t) = first :: rest →
        (∀ e, readItems t = .error e → readItem first = .error e) ∧
        (∀ item, readItem first = .ok (some item) → ∃ r, parse t = .ok r)) := by
  refine ⟨⟨?_, ?_⟩, ?_⟩
  · intro h s p hs hp hpre
    have hbegins := beginsItem_dropBlanks_iff.2 ⟨p, hp, hpre⟩
    obtain ⟨piece, rest, hpieces⟩ := exists_pieces_eq_cons s
    exact (readItem_piece_iff hbegins hpieces).1 (h piece (mem_tail_pieces_iff.2 ⟨s, rest, hs, hbegins, hpieces⟩))
  · intro h piece hpiece
    obtain ⟨s, rest, hs, hbegins, hpieces⟩ := mem_tail_pieces_iff.1 hpiece
    obtain ⟨p, hp, hpre⟩ := beginsItem_dropBlanks_iff.1 hbegins
    exact (readItem_piece_iff hbegins hpieces).2 (h s p hs hp hpre)
  · intro h first rest ht
    rw [ht, List.tail_cons] at h
    constructor
    · intro e he
      have hread := readItems_eq_error he
      rw [ht] at hread
      exact eq_error_of_mapM h hread
    · intro item hitem
      exact exists_parse ht hitem h

/-- A long s folds to the `s` of a code, so the `;` before it separates, but the code names no variant:
the piece is no item, and what was a rule without it is none with it. -/
theorem not_forall_tail_pieces_read :
    (¬ ∀ t, ∀ piece ∈ (pieces (body t)).tail, ∃ item?, readItem piece = .ok item?) ∧
    ¬ ∀ first rest item, readItem first = .ok (some item) → ∃ r, parse (first ++ ';' :: rest) = .ok r := by
  constructor
  · intro h
    have hpieces : (pieces (body "zh-cn:甲;zh-hanſ:乙".toList)).tail = ["zh-hanſ:乙".toList] := by
      decide
    have hpiece : (readItem "zh-hanſ:乙".toList).toOption = none := by decide
    obtain ⟨item?, hitem⟩ := h _ _ (hpieces ▸ List.mem_cons_self)
    rw [hitem] at hpiece
    cases hpiece
  · intro h
    have hparse : (parse ("zh-cn:甲".toList ++ ';' :: "zh-hanſ:乙".toList)).toOption = none := by decide
    obtain ⟨r, hr⟩ := h "zh-cn:甲".toList "zh-hanſ:乙".toList (.spelling .cn "甲".toList) (by decide)
    rw [hr] at hparse
    cases hparse

end Rule

end HanVariants
