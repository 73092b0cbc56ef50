import HanVariants.Text.Blank
import Mathlib.Data.List.Forall2
import Mathlib.Data.List.Infix
import Mathlib.Data.List.TakeWhile
/-!
# Blanks around a text, and where it is cut

A text between blanks is what stripping leaves, if it has none around it (`Padded.strip_eq`), and no
word without blanks is found there but in the text itself (`Padded.isInfix`). A text is cut at the
place where a word stands that stands nowhere before it (`cut?_char`, `cut?_pair`).
-/

namespace HanVariants.Text

/-- The text is made of blanks. -/
def AllBlank (b : Text) : Prop := ∀ c ∈ b, isBlank c = true

instance (b : Text) : Decidable (AllBlank b) := decidable_of_iff (b.all isBlank = true) List.all_eq_true

/-- The text `w` is `t` between blanks. -/
def Padded (t w : Text) : Prop := ∃ b b', AllBlank b ∧ AllBlank b' ∧ w = b ++ (t ++ b')

theorem AllBlank.not_mem {b : Text} (h : AllBlank b) {c : Char} (hc : isBlank c = false) : c ∉ b := by
  intro hm
  rw [h c hm] at hc
  cases hc

theorem toLower_of_isBlank {c : Char} (h : isBlank c = true) : c.toLower = c := by
  unfold isBlank blankRanges at h
  simp only [List.any_cons, List.any_nil, Bool.or_eq_true, Bool.and_eq_true, decide_eq_true_eq,
    Bool.or_false] at h
  unfold Char.toLower
  split
  · next hc =>
    -- no blank is a capital letter
    have hA : 65 ≤ c.toNat := UInt32.le_iff_toNat_le.1 hc.1
    have hZ : c.toNat ≤ 90 := UInt32.le_iff_toNat_le.1 hc.2
    omega
  · rfl

/-! ## Blanks dropped -/

theorem dropBlanks_append {b : Text} (h : AllBlank b) (t : Text) : dropBlanks (b ++ t) = dropBlanks t :=
  List.dropWhile_append_of_pos h

theorem dropBlanks_eq_nil {b : Text} (h : AllBlank b) : dropBlanks b = [] :=
  List.dropWhile_eq_nil_iff.2 h

theorem dropBlanks_cons {c : Char} (h : isBlank c = false) (t : Text) : dropBlanks (c :: t) = c :: t := by
  unfold dropBlanks
  rw [List.dropWhile_cons, if_neg (by simp [h])]

theorem dropBlanks_append_cons (t : Text) {c : Char} (h : isBlank c = false) (s : Text) :
    dropBlanks (t ++ c :: s) = dropBlanks t ++ c :: s := by
  induction t with
  | nil => exact dropBlanks_cons h s
  | cons d t ih =>
    unfold dropBlanks at ih ⊢
    rw [List.cons_append, List.dropWhile_cons, List.dropWhile_cons, ih]
    split <;> rfl

theorem exists_allBlank_append (t : Text) : ∃ b, AllBlank b ∧ t = b ++ dropBlanks t :=
  ⟨t.takeWhile isBlank, fun _ => List.mem_takeWhile_imp, List.takeWhile_append_dropWhile.symm⟩

theorem dropEndBlanks_append {b : Text} (h : AllBlank b) (t : Text) :
    dropEndBlanks (t ++ b) = dropEndBlanks t := by
  unfold dropEndBlanks
  rw [List.reverse_append, List.dropWhile_append_of_pos fun c hc => h c (List.mem_reverse.1 hc)]

theorem dropEndBlanks_concat (t : Text) {c : Char} (h : isBlank c = false) :
    dropEndBlanks (t ++ [c]) = t ++ [c] := by
  unfold dropEndBlanks
  rw [List.reverse_concat, List.dropWhile_cons, if_neg (by simp [h]), List.reverse_cons,
    List.reverse_reverse]

theorem dropEndBlanks_append_cons (t : Text) {c : Char} (h : isBlank c = false) (s : Text) :
    dropEndBlanks (t ++ c :: s) = t ++ c :: dropEndBlanks s := by
  have hreverse : (t ++ c :: s).reverse = s.reverse ++ c :: t.reverse := by simp
  unfold dropEndBlanks
  rw [hreverse, show (s.reverse ++ c :: t.reverse).dropWhile isBlank = _ from
    dropBlanks_append_cons s.reverse h t.reverse]
  simp [dropBlanks]

theorem length_dropEndBlanks_le (t : Text) : (dropEndBlanks t).length ≤ t.length := by
  unfold dropEndBlanks
  rw [List.length_reverse]
  exact (length_dropBlanks_le t.reverse).trans_eq List.length_reverse

theorem strip_of_no_blanks {t : Text} (h : ∀ c ∈ t, isBlank c = false) : strip t = t := by
  have hstart : dropBlanks t = t := by
    cases t with
    | nil => rfl
    | cons c t => exact dropBlanks_cons (h c List.mem_cons_self) t
  unfold strip
  rw [hstart]
  rcases List.eq_nil_or_concat' t with rfl | ⟨t, c, rfl⟩
  · rfl
  · exact dropEndBlanks_concat t (h c (by simp))

/-- A text without blanks around it has none before it. -/
theorem dropBlanks_of_strip {t : Text} (h : strip t = t) : dropBlanks t = t := by
  refine (List.dropWhile_suffix isBlank).eq_of_length_le ?_
  calc t.length = (strip t).length := by rw [h]
    _ ≤ (dropBlanks t).length := length_dropEndBlanks_le _

theorem strip_append {b : Text} (h : AllBlank b) (t : Text) : strip (b ++ t) = strip t := by
  unfold strip
  rw [dropBlanks_append h]

theorem exists_dropEndBlanks_append (t : Text) : ∃ b, AllBlank b ∧ t = dropEndBlanks t ++ b := by
  obtain ⟨b, hb, ht⟩ := exists_allBlank_append t.reverse
  refine ⟨b.reverse, fun c hc => hb c (List.mem_reverse.1 hc), ?_⟩
  calc t = t.reverse.reverse := (List.reverse_reverse t).symm
    _ = (b ++ dropBlanks t.reverse).reverse := by rw [← ht]
    _ = dropEndBlanks t ++ b.reverse := List.reverse_append

/-- A text is what stripping leaves between blanks. -/
theorem padded_strip (t : Text) : Padded (strip t) t := by
  obtain ⟨b, hb, ht⟩ := exists_allBlank_append t
  obtain ⟨b', hb', hs⟩ := exists_dropEndBlanks_append (dropBlanks t)
  refine ⟨b, b', hb, hb', ?_⟩
  unfold strip
  rw [← hs, ← ht]

@[simp]
theorem strip_strip (t : Text) : strip (strip t) = strip t := by
  obtain ⟨b, hb, hs⟩ := exists_dropEndBlanks_append (dropBlanks t)
  have hend : dropEndBlanks (strip t) = strip t := by
    rw [← dropEndBlanks_append hb (strip t)]
    exact congrArg dropEndBlanks hs.symm
  have hstart : dropBlanks (strip t) = strip t := by
    cases hc : strip t with
    | nil => rfl
    | cons c s =>
      unfold strip at hc
      rw [hc] at hs
      exact dropBlanks_cons (dropBlanks_head hs) s
  calc strip (strip t) = dropEndBlanks (dropBlanks (strip t)) := rfl
    _ = strip t := by rw [hstart, hend]

theorem Padded.strip_eq {t w : Text} (h : Padded t w) (ht : strip t = t) : strip w = t := by
  obtain ⟨b, b', hb, hb', rfl⟩ := h
  unfold strip
  rw [dropBlanks_append hb]
  cases t with
  | nil =>
    rw [List.nil_append, dropBlanks_eq_nil hb']
    rfl
  | cons c t =>
    have hc : isBlank c = false := dropBlanks_head (dropBlanks_of_strip ht)
    rw [List.cons_append, dropBlanks_cons hc, ← List.cons_append, dropEndBlanks_append hb']
    unfold strip at ht
    rwa [dropBlanks_cons hc] at ht

/-- Of the blanks around a text those before it are dropped. -/
theorem Padded.exists_dropBlanks {t w : Text} (h : Padded t w) (hne : t ≠ []) (ht : dropBlanks t = t)
    (s : Text) : ∃ w', Padded t w' ∧ dropBlanks (w ++ s) = w' ++ s := by
  obtain ⟨b, b', hb, hb', rfl⟩ := h
  refine ⟨t ++ b', ⟨[], b', by simp [AllBlank], hb', rfl⟩, ?_⟩
  rw [List.append_assoc, dropBlanks_append hb]
  cases t with
  | nil => exact absurd rfl hne
  | cons c t => exact dropBlanks_cons (dropBlanks_head ht) _

/-! ## What stands between blanks -/

theorem Padded.mem {t w : Text} (h : Padded t w) {c : Char} (hc : isBlank c = false) (hm : c ∈ w) :
    c ∈ t := by
  obtain ⟨b, b', hb, hb', rfl⟩ := h
  rcases List.mem_append.1 hm with hm | hm
  · exact absurd hm (hb.not_mem hc)
  · exact (List.mem_append.1 hm).resolve_right (hb'.not_mem hc)

theorem isInfix_of_blank_append {p b t : Text} (hne : p ≠ []) (hp : ∀ c ∈ p, isBlank c = false)
    (hb : AllBlank b) (h : p <:+: b ++ t) : p <:+: t := by
  induction b with
  | nil => exact h
  | cons c b ih =>
    rcases List.infix_cons_iff.1 h with h | h
    · cases p with
      | nil => exact absurd rfl hne
      | cons d p =>
        obtain ⟨rfl, -⟩ := List.cons_prefix_cons.1 h
        exact absurd List.mem_cons_self (hb.not_mem (hp d List.mem_cons_self))
    · exact ih (fun x hx => hb x (List.mem_cons_of_mem _ hx)) h

theorem Padded.isInfix {t w : Text} (h : Padded t w) {p : Text} (hne : p ≠ [])
    (hp : ∀ c ∈ p, isBlank c = false) (hi : p <:+: w) : p <:+: t := by
  obtain ⟨b, b', hb, hb', rfl⟩ := h
  have hi := List.reverse_infix.2 (isInfix_of_blank_append hne hp hb hi)
  rw [List.reverse_append] at hi
  -- what is behind the text is before it when both are reversed
  refine List.reverse_infix.1 (isInfix_of_blank_append ?_ ?_ ?_ hi)
  · exact fun h => hne (List.reverse_eq_nil_iff.1 h)
  · exact fun c hc => hp c (List.mem_reverse.1 hc)
  · exact fun c hc => hb' c (List.mem_reverse.1 hc)

/-! ## Prefixes that go no further -/

/-- A prefix without a character ends before it. -/
theorem isPrefix_of_not_mem {p a s : Text} {c : Char} (hc : c ∉ p) (h : p <+: a ++ c :: s) : p <+: a := by
  induction a generalizing p with
  | nil =>
    cases p with
    | nil => exact List.nil_prefix
    | cons d p =>
      obtain ⟨rfl, -⟩ := List.cons_prefix_cons.1 h
      exact absurd List.mem_cons_self hc
  | cons d a ih =>
    cases p with
    | nil => exact List.nil_prefix
    | cons d' p =>
      obtain ⟨rfl, hp⟩ := List.cons_prefix_cons.1 h
      exact List.cons_prefix_cons.2 ⟨rfl, ih (fun hm => hc (List.mem_cons_of_mem _ hm)) hp⟩

/-- A prefix that ends with a character ends where one stands. -/
theorem isPrefix_of_concat {p a b : Text} {c : Char} (hc : c ∉ b) (h : p ++ [c] <+: a ++ b) :
    p ++ [c] <+: a := by
  induction b using List.reverseRecOn with
  | nil => rwa [List.append_nil] at h
  | append_singleton b d ih =>
    rw [← List.append_assoc, List.prefix_concat_iff] at h
    rcases h with h | h
    · obtain ⟨-, hd⟩ := List.append_inj' h rfl
      cases hd
      exact absurd (List.mem_append_right _ List.mem_cons_self) hc
    · exact ih (fun hm => hc (List.mem_append_left _ hm)) h

/-- The shortest prefix that ends with a character lies in any other that has the character. -/
theorem isPrefix_concat_of_mem {q p t : Text} {c : Char} (hc : c ∉ q) (hq : q ++ [c] <+: t) (hp : p <+: t)
    (hm : c ∈ p) : q ++ [c] <+: p := by
  rcases List.prefix_or_prefix_of_prefix hq hp with h | h
  · exact h
  · rcases List.prefix_concat_iff.1 h with rfl | h
    · exact List.prefix_rfl
    · exact absurd (h.mem hm) hc

/-! ## Readers and cuts -/

theorem readAs?_eq_some_iff {same : Char → Char → Bool} {word t rest : Text} :
    readAs? same word t = some rest ↔
      ∃ w, List.Forall₂ (fun letter c => same letter c = true) word w ∧ t = w ++ rest := by
  induction word generalizing t with
  | nil =>
    rw [readAs?, Option.some_inj]
    simp only [List.forall₂_nil_left_iff, exists_eq_left, List.nil_append]
  | cons letter word ih =>
    simp only [List.forall₂_cons_left_iff]
    cases t with
    | nil => simp [readAs?]
    | cons c t =>
      unfold readAs?
      split
      · next hc =>
        rw [ih]
        constructor
        · rintro ⟨w, hw, rfl⟩
          exact ⟨c :: w, ⟨c, w, hc, hw, rfl⟩, rfl⟩
        · rintro ⟨_, ⟨c', w, -, hw, rfl⟩, h⟩
          cases h
          exact ⟨w, hw, rfl⟩
      · next hc =>
        constructor
        · intro h
          cases h
        · rintro ⟨_, ⟨c', w, hc', -, rfl⟩, h⟩
          cases h
          exact absurd hc' hc

theorem read?_eq_none {word t : Text} (h : ¬ word <+: t) : read? word t = none := by
  by_contra hne
  obtain ⟨r, hr⟩ := Option.ne_none_iff_exists'.1 hne
  exact h ⟨r, (read?_eq_some_iff.1 hr).symm⟩

/-- What stands before a text does not matter to where it is cut, if the reader succeeds nowhere in
it. -/
theorem cutBy?_append_of_none {β : Type} {reader : Text → Option (β × Text)} {a s : Text}
    (ha : ∀ y, y ≠ [] → y <:+ a → reader (y ++ s) = none) :
    cutBy? reader (a ++ s) = (cutBy? reader s).map fun (before, b, after) => (a ++ before, b, after) := by
  induction a with
  | nil => simp
  | cons c a ih =>
    have hc : reader (c :: (a ++ s)) = none := ha (c :: a) (List.cons_ne_nil c a) List.suffix_rfl
    rw [List.cons_append, cutBy?, hc, ih fun y hne hy => ha y hne (hy.trans (List.suffix_cons c a))]
    dsimp only
    rw [Option.map_map]
    rfl

theorem cutBy?_append {β : Type} {reader : Text → Option (β × Text)} {a s after : Text} {b : β}
    (ha : ∀ y, y ≠ [] → y <:+ a → reader (y ++ s) = none) (hs : reader s = some (b, after)) :
    cutBy? reader (a ++ s) = some (a, b, after) := by
  have hstart : cutBy? reader s = some ([], b, after) := by
    cases s with
    | nil => simp [cutBy?, hs]
    | cons c s => simp [cutBy?, hs]
  rw [cutBy?_append_of_none ha, hstart, Option.map_some]
  dsimp only
  rw [List.append_nil]

/-- A cut is made at the first place where the reader succeeds. -/
theorem cutBy?_leftmost {β : Type} {reader : Text → Option (β × Text)} {t before after : Text} {b : β}
    (h : cutBy? reader t = some (before, b, after)) {u s : Text} (ht : t = u ++ s)
    (hlt : u.length < before.length) : reader s = none := by
  induction t generalizing before u with
  | nil =>
    obtain ⟨s', hnil, -⟩ := cutBy?_eq h
    simp [(List.append_eq_nil_iff.1 hnil.symm).1] at hlt
  | cons c t ih =>
    rw [cutBy?] at h
    split at h
    · cases h
      cases hlt
    · next hr =>
      obtain ⟨⟨before', b', after'⟩, hc, he⟩ := Option.map_eq_some_iff.1 h
      cases he
      cases u with
      | nil =>
        rw [List.nil_append] at ht
        exact ht ▸ hr
      | cons d u => exact ih hc (List.cons.inj ht).2 (Nat.lt_of_succ_lt_succ hlt)

theorem cut?_append (word : Text) {a b : Text}
    (h : ∀ y, y ≠ [] → y <:+ a → ¬ word <+: y ++ (word ++ b)) :
    cut? word (a ++ (word ++ b)) = some (a, b) := by
  have hbefore : ∀ y, y ≠ [] → y <:+ a →
      (read? word (y ++ (word ++ b))).map (fun after => ((), after)) = none := by
    intro y hne hy
    rw [read?_eq_none (h y hne hy), Option.map_none]
  have hword : (read? word (word ++ b)).map (fun after => ((), after)) = some ((), b) := by
    rw [read?_eq_some_iff.2 rfl]
    rfl
  unfold cut?
  rw [cutBy?_append hbefore hword]
  rfl

theorem cut?_char {c : Char} {a : Text} (h : c ∉ a) (b : Text) : cut? [c] (a ++ c :: b) = some (a, b) := by
  refine cut?_append [c] fun y hne hy hp => ?_
  cases y with
  | nil => exact hne rfl
  | cons d y =>
    obtain ⟨rfl, -⟩ := List.cons_prefix_cons.1 hp
    exact h (hy.mem List.mem_cons_self)

theorem cut?_pair {c d : Char} (hcd : c ≠ d) {a : Text} (h : ¬ [c, d] <:+: a) (b : Text) :
    cut? [c, d] (a ++ c :: d :: b) = some (a, b) := by
  refine cut?_append [c, d] fun y hne hy hp => ?_
  cases y with
  | nil => exact hne rfl
  | cons x y =>
    obtain ⟨rfl, hd⟩ := List.cons_prefix_cons.1 hp
    cases y with
    | nil => exact hcd (List.cons_prefix_cons.1 hd).1.symm
    | cons x' y =>
      obtain ⟨rfl, -⟩ := List.cons_prefix_cons.1 hd
      exact h (List.IsInfix.trans ⟨[], y, rfl⟩ hy.isInfix)

theorem cut?_append_of_not_mem {c : Char} {a : Text} (h : c ∉ a) (word s : Text) :
    cut? (c :: word) (a ++ s) = (cut? (c :: word) s).map fun (before, after) => (a ++ before, after) := by
  have hnone : ∀ y, y ≠ [] → y <:+ a →
      (read? (c :: word) (y ++ s)).map (fun after => ((), after)) = none := by
    intro y hne hy
    rw [read?_eq_none, Option.map_none]
    intro hp
    cases y with
    | nil => exact hne rfl
    | cons d y =>
      obtain ⟨rfl, -⟩ := List.cons_prefix_cons.1 hp
      exact h (hy.mem List.mem_cons_self)
  unfold cut?
  rw [cutBy?_append_of_none hnone, Option.map_map, Option.map_map]
  rfl

/-- The word that a text is cut at stands nowhere before the cut. -/
theorem not_isInfix_of_cut? {word t before after : Text} (hne : word ≠ [])
    (h : cut? word t = some (before, after)) : ¬ word <:+: before := by
  obtain ⟨⟨before', u, after'⟩, hc, he⟩ := Option.map_eq_some_iff.1 h
  cases he
  rintro ⟨a, b, rfl⟩
  obtain ⟨s, rfl, -⟩ := cutBy?_eq hc
  -- an occurrence before the cut would have been cut at
  have hnone := cutBy?_leftmost hc (u := a) (s := word ++ (b ++ s)) (by simp)
    (by have := List.length_pos_iff.2 hne; simp; omega)
  rw [read?_eq_some_iff.2 rfl] at hnone
  cases hnone

theorem cut?_eq_none {word t : Text} (h : ¬ word <:+: t) : cut? word t = none := by
  unfold cut?
  rw [Option.map_eq_none_iff, cutBy?_eq_none_iff]
  rintro before s rfl
  have hs : ¬ word <+: s := fun hp => h (hp.isInfix.trans (List.suffix_append before s).isInfix)
  rw [read?_eq_none hs, Option.map_none]

end HanVariants.Text
