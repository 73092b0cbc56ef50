import HanVariants.Proofs.OrderedMap
import HanVariants.Words.Search
import Mathlib.Data.List.Infix
/-!
# Dictionaries, position by position

A dictionary says which words there are and what each of them stands for. Its meaning is given here
without an automaton: `longest?` is the longest word at the start of a text, and `scanBy` reads a
text and remembers nothing, taking at each position the word that is picked there or else one
character. A text is rewritten by putting the values of the words taken in their places.
-/

namespace HanVariants

variable {α : Type}

@[ext]
structure Dictionary (α : Type) where
  get? : Text → Option α
  get?_nil : get? [] = none

namespace Dictionary

/-- The dictionary of pairs: the last pair of a word wins, and the empty text is no word. -/
def ofPairs (pairs : List (Text × α)) : Dictionary α where
  get? w := if w = [] then none else OrderedMap.last? w pairs
  get?_nil := rfl

theorem get?_ofPairs (pairs : List (Text × α)) (w : Text) :
    (ofPairs pairs).get? w = if w = [] then none else OrderedMap.last? w pairs := rfl

theorem get?_ofPairs_of_ne_nil {pairs : List (Text × α)} (hne : ∀ p ∈ pairs, p.1 ≠ []) (w : Text) :
    (ofPairs pairs).get? w = OrderedMap.last? w pairs := by
  rw [get?_ofPairs]
  split
  · next hw =>
    refine (OrderedMap.last?_eq_none_iff.2 fun hm => ?_).symm
    obtain ⟨p, hp, hpw⟩ := List.mem_map.1 hm
    exact hne p hp (hpw.trans hw)
  · rfl

/-- Where no word is empty or comes twice, the pairs are the words with their values. -/
theorem get?_ofPairs_eq_some_iff {pairs : List (Text × α)} (hd : (pairs.map (·.1)).Nodup)
    (hne : ∀ p ∈ pairs, p.1 ≠ []) {w : Text} {a : α} :
    (ofPairs pairs).get? w = some a ↔ (w, a) ∈ pairs := by
  rw [get?_ofPairs_of_ne_nil hne, OrderedMap.last?_eq_some_iff hd]

/-- Gathering the pairs in a map changes nothing. -/
theorem ofPairs_toList_ofList (pairs : List (Text × α)) :
    ofPairs (OrderedMap.ofList (pairs.filter fun p => p.1 ≠ [])).toList = ofPairs pairs := by
  ext w : 2
  rw [get?_ofPairs, get?_ofPairs]
  split
  · rfl
  · next hw =>
    rw [← OrderedMap.lookup_eq_last? (OrderedMap.nodup_keys_ofList _)]
    refine (OrderedMap.get?_ofList _ w).trans ?_
    rw [OrderedMap.last?_filter (fun s => decide (s ≠ [])), if_pos (decide_eq_true hw)]

/-- A word with what it stands for. -/
def entry? (d : Dictionary α) (w : Text) : Option (Entry α) :=
  match h : d.get? w with
  | none => none
  | some a => some ⟨w, a, by rintro rfl; rw [d.get?_nil] at h; cases h⟩

/-- The longest word at the start of a text that has at most `n` characters. -/
def longestUpTo? (d : Dictionary α) (t : Text) : Nat → Option (Entry α)
  | 0 => none
  | n + 1 => (d.entry? (t.take (n + 1))).or (d.longestUpTo? t n)

/-- The longest word that stands at the start of a text. -/
def longest? (d : Dictionary α) (t : Text) : Option (Entry α) := d.longestUpTo? t t.length

end Dictionary

/-! ## Reading without memory -/

/-- Reads a text: at each position the word that is picked there, or else one character. -/
def scanBy (pick : Text → Option (Entry α)) : Text → List (Segment α)
  | [] => []
  | c :: t =>
    match pick (c :: t) with
    | none => .copied [c] :: scanBy pick t
    | some e => .matched e.word e.value :: scanBy pick ((c :: t).drop e.word.length)
termination_by t => t.length
decreasing_by
  · simp
  · have := List.length_pos_iff.2 e.word_ne_nil; simp; omega

/-- What a stretch of a text becomes. -/
def Segment.result : Segment Text → Text
  | copied t => t
  | matched _ target => target

/-- The word that is replaced, if there is one. -/
def Segment.replaced : Segment α → Text
  | copied _ => []
  | matched word _ => word

/-- Replaces the words that are picked and copies everything else. -/
def rewriteBy (pick : Text → Option (Entry Text)) (t : Text) : Text :=
  (scanBy pick t).flatMap Segment.result

/-- The number of characters in the words that are picked. -/
def coveredBy (pick : Text → Option (Entry α)) (t : Text) : Nat :=
  ((scanBy pick t).flatMap Segment.replaced).length

section Scan

variable {pick : Text → Option (Entry α)}

@[simp]
theorem scanBy_nil : scanBy pick [] = [] := by
  rw [scanBy]

theorem scanBy_of_none {c : Char} {t : Text} (h : pick (c :: t) = none) :
    scanBy pick (c :: t) = .copied [c] :: scanBy pick t := by
  rw [scanBy, h]

theorem scanBy_of_some {t : Text} {e : Entry α} (ht : t ≠ []) (h : pick t = some e) :
    scanBy pick t = .matched e.word e.value :: scanBy pick (t.drop e.word.length) := by
  cases t with
  | nil => exact absurd rfl ht
  | cons c t => rw [scanBy, h]

/-- Where nothing is picked, characters are copied one by one. -/
theorem flatMap_scanBy_of_none {β : Type} (f : Segment α → List β)
    (hnil : f (.copied []) = []) (hcons : ∀ c u, f (.copied (c :: u)) = f (.copied [c]) ++ f (.copied u))
    (k : Nat) (t : Text) (h : ∀ p < k, pick (t.drop p) = none) :
    (scanBy pick t).flatMap f = f (.copied (t.take k)) ++ (scanBy pick (t.drop k)).flatMap f := by
  induction k generalizing t with
  | zero => simp [hnil]
  | succ k ih =>
    cases t with
    | nil => simp [hnil]
    | cons c t =>
      have h₀ : pick (c :: t) = none := h 0 (Nat.succ_pos k)
      rw [scanBy_of_none h₀, List.flatMap_cons, ih t fun p hp => h (p + 1) (Nat.succ_lt_succ hp),
        List.take_succ_cons, hcons c (t.take k), List.append_assoc, List.drop_succ_cons]

end Scan

section Rewrite

variable {pick : Text → Option (Entry Text)}

@[simp]
theorem rewriteBy_nil : rewriteBy pick [] = [] := by
  rw [rewriteBy, scanBy_nil, List.flatMap_nil]

theorem rewriteBy_of_some {t : Text} {e : Entry Text} (ht : t ≠ []) (h : pick t = some e) :
    rewriteBy pick t = e.value ++ rewriteBy pick (t.drop e.word.length) := by
  rw [rewriteBy, scanBy_of_some ht h]
  rfl

/-- Where nothing is ever picked, a text stays as it is. -/
theorem rewriteBy_of_none (h : ∀ t, pick t = none) (t : Text) : rewriteBy pick t = t := by
  rw [rewriteBy, flatMap_scanBy_of_none Segment.result rfl (fun _ _ => rfl) t.length t fun p _ => h _]
  simp [Segment.result]

end Rewrite

/-! ## The longest word -/

namespace Dictionary

theorem entry?_eq_some_iff {d : Dictionary α} {w : Text} {e : Entry α} :
    d.entry? w = some e ↔ w = e.word ∧ d.get? w = some e.value := by
  obtain ⟨word, value, hne⟩ := e
  unfold entry?
  split
  · next h => simp [h]
  · next a h => simp [h, Option.some.injEq]

theorem entry?_eq_none_iff {d : Dictionary α} {w : Text} : d.entry? w = none ↔ d.get? w = none := by
  unfold entry?
  split
  · next h => simp [h]
  · next a h => simp [h]

theorem map_entry? (d : Dictionary α) (w : Text) : (d.entry? w).map (·.value) = d.get? w := by
  cases h : d.entry? w with
  | none => exact (entry?_eq_none_iff.1 h).symm
  | some e => exact (entry?_eq_some_iff.1 h).2.symm

theorem exists_entry? {d : Dictionary α} {w : Text} {a : α} (h : d.get? w = some a) :
    ∃ e, d.entry? w = some e :=
  Option.ne_none_iff_exists'.1 fun hn => by simp [entry?_eq_none_iff.1 hn] at h

theorem eq_entry? {d : Dictionary α} {w : Text} {o : Option (Entry α)}
    (hw : ∀ e, o = some e → e.word = w) (hv : o.map (·.value) = d.get? w) : o = d.entry? w := by
  cases o with
  | none => exact (entry?_eq_none_iff.2 hv.symm).symm
  | some e => exact (entry?_eq_some_iff.2 ⟨(hw e rfl).symm, hv.symm⟩).symm

theorem longestUpTo?_eq_none_iff {d : Dictionary α} {t : Text} {n : Nat} :
    d.longestUpTo? t n = none ↔ ∀ k ≤ n, d.get? (t.take k) = none := by
  induction n with
  | zero => simp [longestUpTo?, d.get?_nil]
  | succ n ih =>
    rw [longestUpTo?, Option.or_eq_none_iff, ih, entry?_eq_none_iff]
    refine ⟨fun ⟨h, hn⟩ k hk => ?_, fun h => ⟨h _ (Nat.le_refl _), fun k hk => h k (Nat.le_succ_of_le hk)⟩⟩
    rcases Nat.le_succ_iff.1 hk with hk | rfl
    · exact hn k hk
    · exact h

theorem longestUpTo?_eq_some {d : Dictionary α} {t : Text} {n : Nat} {e : Entry α}
    (h : d.longestUpTo? t n = some e) : ∃ k ≤ n, d.entry? (t.take k) = some e ∧
      ∀ j ≤ n, k < j → d.get? (t.take j) = none := by
  induction n with
  | zero => cases h
  | succ n ih =>
    rcases Option.or_eq_some_iff.1 h with h | ⟨hn, h⟩
    · exact ⟨n + 1, Nat.le_refl _, h, fun j hj hlt => absurd hj (Nat.not_le.2 hlt)⟩
    · obtain ⟨k, hk, he, hm⟩ := ih h
      refine ⟨k, Nat.le_succ_of_le hk, he, fun j hj hlt => ?_⟩
      rcases Nat.le_succ_iff.1 hj with hj | rfl
      · exact hm j hj hlt
      · exact entry?_eq_none_iff.1 hn

theorem longest?_eq_none_iff {d : Dictionary α} {t : Text} :
    d.longest? t = none ↔ ∀ w, w <+: t → d.get? w = none := by
  rw [longest?, longestUpTo?_eq_none_iff]
  constructor
  · intro h w hp
    rw [List.prefix_iff_eq_take.1 hp]
    exact h w.length hp.length_le
  · intro h k _
    exact h (t.take k) (List.take_prefix k t)

theorem longest?_eq_some_iff {d : Dictionary α} {t : Text} {e : Entry α} :
    d.longest? t = some e ↔ e.word <+: t ∧ d.get? e.word = some e.value ∧
      ∀ w, w <+: t → (d.get? w).isSome → w.length ≤ e.word.length := by
  have spec : ∀ e, d.longest? t = some e → e.word <+: t ∧ d.get? e.word = some e.value ∧
      ∀ w, w <+: t → (d.get? w).isSome → w.length ≤ e.word.length := by
    intro e h
    obtain ⟨k, hk, he, hm⟩ := longestUpTo?_eq_some h
    obtain ⟨hw, hv⟩ := entry?_eq_some_iff.1 he
    refine ⟨hw ▸ List.take_prefix k t, hw ▸ hv, fun w hp hs => ?_⟩
    by_contra hlt
    rw [← hw, List.length_take_of_le hk] at hlt
    rw [List.prefix_iff_eq_take.1 hp, hm w.length hp.length_le (Nat.lt_of_not_le hlt)] at hs
    cases hs
  refine ⟨spec e, ?_⟩
  rintro ⟨hp, hv, hm⟩
  cases he : d.longest? t with
  | none =>
    rw [longest?_eq_none_iff.1 he e.word hp] at hv
    cases hv
  | some e' =>
    obtain ⟨hp', hv', hm'⟩ := spec e' he
    -- two longest words at one place are the same
    have hlen : e'.word.length = e.word.length :=
      Nat.le_antisymm (hm _ hp' (by simp [hv'])) (hm' _ hp (by simp [hv]))
    have hw : e'.word = e.word := by
      rw [List.prefix_iff_eq_take.1 hp', List.prefix_iff_eq_take.1 hp, hlen]
    rw [hw, hv] at hv'
    obtain ⟨word, value, hne⟩ := e
    obtain ⟨word', value', hne'⟩ := e'
    simp_all

/-- A text that is a word itself has no longer word at its start. -/
theorem longest?_self {d : Dictionary α} {w : Text} {a : α} (h : d.get? w = some a) :
    ∃ e, d.longest? w = some e ∧ e.word = w ∧ e.value = a := by
  obtain ⟨e, he⟩ := exists_entry? h
  obtain ⟨hw, hv⟩ := entry?_eq_some_iff.1 he
  have hstart : e.word <+: w := by rw [← hw]
  have hlongest : d.longest? w = some e :=
    longest?_eq_some_iff.2 ⟨hstart, hw ▸ hv, fun u hu _ => hw ▸ hu.length_le⟩
  exact ⟨e, hlongest, hw.symm, Option.some.inj (hv.symm.trans h)⟩

end Dictionary

end HanVariants
