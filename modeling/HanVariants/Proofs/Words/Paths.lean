import HanVariants.Proofs.OrderedMap
import HanVariants.Words.Trie
import Mathlib.Data.List.Basic
import Mathlib.Data.List.Induction
/-!
# The paths of a trie

A node of a trie stands for the text on the way from the root to it. `Sound` says that every node
but the root hangs from exactly one earlier node, and that a word is held where it is spelled. It
holds of every trie that was made by adding words (`sound_ofList`), and such a trie holds exactly
the words added, each with the value added last (`find?_ofList`).
-/

namespace HanVariants.Trie

variable {α : Type}

/-- The node that a node hangs from, and the character between them. -/
def origin? (t : Trie α) (n : Nat) : Option (Nat × Char) := t.nodes[n]?.bind (·.origin)

/-- Every node but the root hangs from one earlier node, and words are held where they are spelled. -/
structure Sound (t : Trie α) : Prop where
  root_lt : root < t.nodes.size
  origin?_root : t.origin? root = none
  depth_root : t.depth root = 0
  exists_origin? : ∀ n, n < t.nodes.size → n ≠ root → ∃ p c, t.origin? n = some (p, c)
  lt_of_origin? : ∀ n p c, t.origin? n = some (p, c) → p < n
  child?_of_origin? : ∀ n p c, t.origin? n = some (p, c) → t.child? p c = some n
  depth_of_origin? : ∀ n p c, t.origin? n = some (p, c) → t.depth n = t.depth p + 1
  origin?_of_child? : ∀ p c n, t.child? p c = some n → t.origin? n = some (p, c)
  walk?_of_wordAt? : ∀ n e, t.wordAt? n = some e → t.walk? root e.word = some n

/-! ## Walking -/

theorem lt_of_origin?_eq_some {t : Trie α} {n : Nat} {o : Nat × Char} (h : t.origin? n = some o) :
    n < t.nodes.size := by
  by_contra hn
  simp [origin?, Array.getElem?_eq_none (Nat.le_of_not_lt hn)] at h

theorem wordAt?_eq_none {t : Trie α} {n : Nat} (h : t.nodes.size ≤ n) : t.wordAt? n = none := by
  simp [wordAt?, Array.getElem?_eq_none h]

theorem walk?_append (t : Trie α) (n : Nat) (u v : Text) :
    t.walk? n (u ++ v) = (t.walk? n u).bind fun m => t.walk? m v := by
  induction u generalizing n with
  | nil => rfl
  | cons c u ih =>
    simp only [List.cons_append, walk?]
    cases t.child? n c with
    | none => rfl
    | some m => exact ih m

theorem walk?_concat (t : Trie α) (n : Nat) (u : Text) (c : Char) :
    t.walk? n (u ++ [c]) = (t.walk? n u).bind (t.child? · c) := by
  rw [walk?_append]
  congr 1
  funext m
  simp [walk?]

theorem walk?_concat_eq_some {t : Trie α} {n m : Nat} {u : Text} {c : Char}
    (h : t.walk? n (u ++ [c]) = some m) : ∃ p, t.walk? n u = some p ∧ t.child? p c = some m := by
  rwa [walk?_concat, Option.bind_eq_some_iff] at h

/-- What a longer text passes on its way is the path of its start. -/
theorem isSome_walk?_of_append {t : Trie α} {n : Nat} {u v : Text}
    (h : (t.walk? n (u ++ v)).isSome) : (t.walk? n u).isSome := by
  rw [walk?_append] at h
  cases hu : t.walk? n u with
  | none => simp [hu] at h
  | some m => rfl

namespace Sound

variable {t : Trie α}

theorem walk?_lt (h : t.Sound) {w : Text} {n : Nat} (hw : t.walk? root w = some n) :
    n < t.nodes.size := by
  rcases List.eq_nil_or_concat' w with rfl | ⟨u, c, rfl⟩
  · simp only [walk?, Option.some.injEq] at hw
    exact hw ▸ h.root_lt
  · obtain ⟨p, -, hc⟩ := walk?_concat_eq_some hw
    exact lt_of_origin?_eq_some (h.origin?_of_child? p c n hc)

/-- No step leads back to the root. -/
theorem walk?_concat_ne_root (h : t.Sound) (u : Text) (c : Char) :
    t.walk? root (u ++ [c]) ≠ some root := by
  intro hw
  obtain ⟨p, -, hc⟩ := walk?_concat_eq_some hw
  have ho := h.origin?_of_child? p c root hc
  rw [h.origin?_root] at ho
  cases ho

/-- A node is reached by one text only. -/
theorem walk?_inj (h : t.Sound) {u v : Text} {n : Nat} (hu : t.walk? root u = some n)
    (hv : t.walk? root v = some n) : u = v := by
  induction u using List.reverseRecOn generalizing v n with
  | nil =>
    simp only [walk?, Option.some.injEq] at hu
    subst hu
    rcases List.eq_nil_or_concat' v with rfl | ⟨v, d, rfl⟩
    · rfl
    · exact absurd hv (h.walk?_concat_ne_root v d)
  | append_singleton u c ih =>
    rcases List.eq_nil_or_concat' v with rfl | ⟨v, d, rfl⟩
    · simp only [walk?, Option.some.injEq] at hv
      exact absurd (hv ▸ hu) (h.walk?_concat_ne_root u c)
    · obtain ⟨p, hp, hc⟩ := walk?_concat_eq_some hu
      obtain ⟨q, hq, hd⟩ := walk?_concat_eq_some hv
      -- the node tells where the last step came from
      have e := (h.origin?_of_child? p c n hc).symm.trans (h.origin?_of_child? q d n hd)
      simp only [Option.some.injEq, Prod.mk.injEq] at e
      obtain ⟨rfl, rfl⟩ := e
      rw [ih hp hq]

/-- Every node is reached from the root. -/
theorem exists_walk? (h : t.Sound) (n : Nat) (hn : n < t.nodes.size) :
    ∃ w, t.walk? root w = some n := by
  -- a node hangs from an earlier one, so the induction is on its number
  induction n using Nat.strongRecOn with
  | _ n ih =>
    by_cases hr : n = root
    · exact ⟨[], by simp [walk?, hr]⟩
    · obtain ⟨p, c, ho⟩ := h.exists_origin? n hn hr
      have hlt := h.lt_of_origin? n p c ho
      obtain ⟨u, hu⟩ := ih p hlt (Nat.lt_trans hlt hn)
      exact ⟨u ++ [c], by simp [walk?_concat, hu, h.child?_of_origin? n p c ho]⟩

/-- The depth of a node is the length of its path. -/
theorem depth_walk? (h : t.Sound) {w : Text} {n : Nat} (hw : t.walk? root w = some n) :
    t.depth n = w.length := by
  induction w using List.reverseRecOn generalizing n with
  | nil =>
    simp only [walk?, Option.some.injEq] at hw
    simp [← hw, h.depth_root]
  | append_singleton u c ih =>
    obtain ⟨p, hp, hc⟩ := walk?_concat_eq_some hw
    rw [h.depth_of_origin? n p c (h.origin?_of_child? p c n hc), ih hp]
    simp

theorem find?_eq_some_iff (h : t.Sound) {w : Text} {e : Entry α} :
    t.find? w = some e ↔ w = e.word ∧ ∃ n, t.wordAt? n = some e := by
  constructor
  · intro hf
    obtain ⟨n, hn, he⟩ := Option.bind_eq_some_iff.1 hf
    exact ⟨h.walk?_inj hn (h.walk?_of_wordAt? n e he), n, he⟩
  · rintro ⟨rfl, n, he⟩
    simp [find?, h.walk?_of_wordAt? n e he, he]

end Sound

/-! ## The empty trie -/

theorem sound_empty : ({} : Trie α).Sound where
  root_lt := by simp [root]
  origin?_root := rfl
  depth_root := rfl
  exists_origin? n hn hr := by
    simp only [root, List.size_toArray, List.length_cons, List.length_nil] at hn hr
    omega
  lt_of_origin? n p c h := by cases n <;> simp [origin?] at h
  child?_of_origin? n p c h := by cases n <;> simp [origin?] at h
  depth_of_origin? n p c h := by cases n <;> simp [origin?] at h
  origin?_of_child? p c n h := by cases p <;> simp [child?] at h
  walk?_of_wordAt? n e h := by cases n <;> simp [wordAt?] at h

@[simp]
theorem find?_empty (w : Text) : ({} : Trie α).find? w = none := by
  cases h : ({} : Trie α).find? w with
  | none => rfl
  | some e =>
    obtain ⟨-, n, hn⟩ := sound_empty.find?_eq_some_iff.1 h
    cases n <;> simp [wordAt?] at hn

/-! ## More nodes -/

/-- A trie with more nodes and edges, and the same words. -/
structure Extends (t t' : Trie α) : Prop where
  size_le : t.nodes.size ≤ t'.nodes.size
  child? : ∀ n c m, t.child? n c = some m → t'.child? n c = some m
  wordAt? : ∀ n, t'.wordAt? n = t.wordAt? n

namespace Extends

variable {t t' t'' : Trie α}

theorem refl (t : Trie α) : Extends t t := ⟨Nat.le_refl _, fun _ _ _ h => h, fun _ => rfl⟩

theorem trans (h : Extends t t') (h' : Extends t' t'') : Extends t t'' where
  size_le := Nat.le_trans h.size_le h'.size_le
  child? n c m hm := h'.child? n c m (h.child? n c m hm)
  wordAt? n := (h'.wordAt? n).trans (h.wordAt? n)

theorem walk? (h : Extends t t') {n m : Nat} {w : Text} (hw : t.walk? n w = some m) :
    t'.walk? n w = some m := by
  induction w generalizing n with
  | nil => exact hw
  | cons c w ih =>
    obtain ⟨k, hk, hw⟩ := Option.bind_eq_some_iff.1 hw
    simp [Trie.walk?, h.child? n c k hk, ih hw]

/-- New nodes hold no words, so every word is found as before. -/
theorem find?_eq (h : Extends t t') (hs : t.Sound) (hs' : t'.Sound) (w : Text) :
    t'.find? w = t.find? w := by
  cases hw : t.walk? root w with
  | some n => simp [find?, hw, h.walk? hw, h.wordAt?]
  | none =>
    cases hw' : t'.walk? root w with
    | none => simp [find?, hw, hw']
    | some n =>
      -- an old node has an old path, and a node has only one
      have hn : t.nodes.size ≤ n := by
        by_contra hn
        obtain ⟨u, hu⟩ := hs.exists_walk? n (Nat.lt_of_not_le hn)
        rw [hs'.walk?_inj hw' (h.walk? hu), hu] at hw
        cases hw
      simp [find?, hw, hw', h.wordAt?, wordAt?_eq_none hn]

end Extends

theorem depth_eq_bind (t : Trie α) (n : Nat) :
    t.depth n = (t.nodes[n]?.bind fun node => some node.depth).getD 0 := by
  rw [depth, Option.map_eq_bind]
  rfl

theorem origin?_addChild (t : Trie α) (n : Nat) (c : Char) (m : Nat) :
    (t.addChild n c).origin? m = if m = t.nodes.size then some (n, c) else t.origin? m :=
  bind_nodes_addChild (fun _ _ => rfl) t n c m

theorem depth_addChild (t : Trie α) (n : Nat) (c : Char) (m : Nat) :
    (t.addChild n c).depth m = if m = t.nodes.size then t.depth n + 1 else t.depth m := by
  rw [depth_eq_bind, bind_nodes_addChild (fun _ _ => rfl)]
  split
  · rfl
  · rw [depth_eq_bind t m]

theorem extends_addChild {t : Trie α} {n : Nat} (hn : n < t.nodes.size) {c : Char}
    (hc : t.child? n c = none) : Extends t (t.addChild n c) where
  size_le := by simp
  child? m d k hk := by
    rw [child?_addChild hn, if_neg]
    · exact hk
    · rintro ⟨rfl, rfl⟩
      rw [hc] at hk
      cases hk
  wordAt? := wordAt?_addChild t n c

theorem Sound.addChild {t : Trie α} (h : t.Sound) {n : Nat} (hn : n < t.nodes.size) {c : Char}
    (hc : t.child? n c = none) : (t.addChild n c).Sound := by
  have hx := extends_addChild hn hc
  -- an edge of the old trie leads to an old node, so it keeps its origin and its depth
  have hne : ∀ m p d, t.origin? m = some (p, d) → m ≠ t.nodes.size ∧ p ≠ t.nodes.size := by
    intro m p d ho
    have := lt_of_origin?_eq_some ho
    have := h.lt_of_origin? m p d ho
    omega
  have split : ∀ m p d, (t.addChild n c).origin? m = some (p, d) →
      (m = t.nodes.size ∧ p = n ∧ d = c) ∨ t.origin? m = some (p, d) := by
    intro m p d ho
    rw [origin?_addChild] at ho
    split at ho
    · next hm => simp only [Option.some.injEq, Prod.mk.injEq] at ho; exact .inl ⟨hm, ho.1.symm, ho.2.symm⟩
    · exact .inr ho
  constructor
  · exact Nat.lt_of_lt_of_le h.root_lt hx.size_le
  · rw [origin?_addChild, if_neg (Nat.ne_of_lt h.root_lt)]
    exact h.origin?_root
  · rw [depth_addChild, if_neg (Nat.ne_of_lt h.root_lt)]
    exact h.depth_root
  · intro m hm hr
    rw [size_nodes_addChild] at hm
    by_cases e : m = t.nodes.size
    · exact ⟨n, c, by simp [origin?_addChild, e]⟩
    · obtain ⟨p, d, ho⟩ := h.exists_origin? m (by omega) hr
      exact ⟨p, d, by simp [origin?_addChild, e, ho]⟩
  · intro m p d ho
    rcases split m p d ho with ⟨rfl, rfl, -⟩ | ho
    · exact hn
    · exact h.lt_of_origin? m p d ho
  · intro m p d ho
    rcases split m p d ho with ⟨rfl, rfl, rfl⟩ | ho
    · simp [child?_addChild hn]
    · exact hx.child? p d m (h.child?_of_origin? m p d ho)
  · intro m p d ho
    rcases split m p d ho with ⟨rfl, rfl, rfl⟩ | ho
    · simp [depth_addChild, Nat.ne_of_lt hn]
    · rw [depth_addChild, depth_addChild, if_neg (hne m p d ho).1, if_neg (hne m p d ho).2]
      exact h.depth_of_origin? m p d ho
  · intro p d m hm
    rw [child?_addChild hn] at hm
    rw [origin?_addChild]
    split at hm
    · next e => simp_all
    · have ho := h.origin?_of_child? p d m hm
      rw [if_neg (hne m p d ho).1, ho]
  · intro m e he
    rw [hx.wordAt?] at he
    exact hx.walk? (h.walk?_of_wordAt? m e he)

/-- Spelling a text makes its path and changes nothing else. -/
theorem Sound.spell {t : Trie α} (h : t.Sound) {n : Nat} (hn : n < t.nodes.size) (w : Text) :
    (t.spell n w).1.Sound ∧ Extends t (t.spell n w).1 ∧
      (t.spell n w).1.walk? n w = some (t.spell n w).2 := by
  induction w generalizing t n with
  | nil => exact ⟨h, .refl t, rfl⟩
  | cons c w ih =>
    cases hc : t.child? n c with
    | some m =>
      obtain ⟨h₁, h₂, h₃⟩ := ih h (lt_of_origin?_eq_some (h.origin?_of_child? n c m hc))
      simp only [Trie.spell, hc]
      exact ⟨h₁, h₂, by simp [walk?, h₂.child? n c m hc, h₃]⟩
    | none =>
      -- the rest is spelled from the new node
      have hx := extends_addChild hn hc
      have hm : (t.addChild n c).child? n c = some t.nodes.size := by simp [child?_addChild hn]
      obtain ⟨h₁, h₂, h₃⟩ := ih (h.addChild hn hc) (n := t.nodes.size) (by simp)
      simp only [Trie.spell, hc]
      exact ⟨h₁, hx.trans h₂, by simp [walk?, h₂.child? _ _ _ hm, h₃]⟩

/-! ## Words added -/

@[simp]
theorem origin?_setEntry (t : Trie α) (n : Nat) (e : Entry α) (m : Nat) :
    (t.setEntry n e).origin? m = t.origin? m :=
  bind_nodes_setEntry (fun _ _ => rfl) t n e m

@[simp]
theorem depth_setEntry (t : Trie α) (n : Nat) (e : Entry α) (m : Nat) :
    (t.setEntry n e).depth m = t.depth m := by
  rw [depth_eq_bind, depth_eq_bind, bind_nodes_setEntry fun _ _ => rfl]

@[simp]
theorem walk?_setEntry (t : Trie α) (n : Nat) (e : Entry α) (m : Nat) (w : Text) :
    (t.setEntry n e).walk? m w = t.walk? m w := by
  induction w generalizing m with
  | nil => rfl
  | cons c w ih => simp [walk?, ih]

theorem Sound.setEntry {t : Trie α} (h : t.Sound) {n : Nat} {e : Entry α}
    (hw : t.walk? root e.word = some n) : (t.setEntry n e).Sound where
  root_lt := by simpa [Trie.setEntry] using h.root_lt
  origin?_root := by simpa using h.origin?_root
  depth_root := by simpa using h.depth_root
  exists_origin? m hm hr := by simpa using h.exists_origin? m (by simpa [Trie.setEntry] using hm) hr
  lt_of_origin? := by simpa using h.lt_of_origin?
  child?_of_origin? := by simpa using h.child?_of_origin?
  depth_of_origin? := by simpa using h.depth_of_origin?
  origin?_of_child? := by simpa using h.origin?_of_child?
  walk?_of_wordAt? m e' he' := by
    rw [wordAt?_setEntry (h.walk?_lt hw)] at he'
    rw [walk?_setEntry]
    split at he'
    · next hm => cases he'; rw [hm, hw]
    · exact h.walk?_of_wordAt? m e' he'

theorem Sound.find?_setEntry {t : Trie α} (h : t.Sound) {n : Nat} {e : Entry α}
    (hw : t.walk? root e.word = some n) (w : Text) :
    (t.setEntry n e).find? w = if w = e.word then some e else t.find? w := by
  simp only [find?, walk?_setEntry]
  by_cases he : w = e.word
  · simp [he, hw, wordAt?_setEntry (h.walk?_lt hw)]
  · cases hn : t.walk? root w with
    | none => simp [he]
    | some m =>
      have hm : m ≠ n := by
        rintro rfl
        exact he (h.walk?_inj hn hw)
      simp [he, wordAt?_setEntry (h.walk?_lt hw), hm]

theorem Sound.insert {t : Trie α} (h : t.Sound) (e : Entry α) : (t.insert e).Sound := by
  obtain ⟨h₁, -, h₃⟩ := h.spell h.root_lt e.word
  exact h₁.setEntry h₃

/-- Adding a word changes what is found for this word only. -/
theorem Sound.find?_insert {t : Trie α} (h : t.Sound) (e : Entry α) (w : Text) :
    (t.insert e).find? w = if w = e.word then some e else t.find? w := by
  obtain ⟨h₁, h₂, h₃⟩ := h.spell h.root_lt e.word
  rw [← h₂.find?_eq h h₁]
  exact h₁.find?_setEntry h₃ w

theorem Sound.insertMany {t : Trie α} (h : t.Sound) (es : List (Entry α)) :
    (t.insertMany es).Sound := by
  induction es generalizing t with
  | nil => exact h
  | cons e es ih => exact ih (h.insert e)

theorem Sound.find?_insertMany {t : Trie α} (h : t.Sound) (es : List (Entry α)) (w : Text) :
    ((t.insertMany es).find? w).map (·.value) =
      (OrderedMap.last? w (es.map fun e => (e.word, e.value))).or ((t.find? w).map (·.value)) := by
  induction es generalizing t with
  | nil => rfl
  | cons e es ih =>
    rw [show t.insertMany (e :: es) = (t.insert e).insertMany es from rfl, ih (h.insert e),
      h.find?_insert, List.map_cons, OrderedMap.last?, Option.or_assoc]
    congr 1
    by_cases he : w = e.word
    · simp [he]
    · simp [he, Ne.symm he]

theorem sound_ofList (es : List (Entry α)) : (ofList es).Sound := sound_empty.insertMany es

/-- A trie holds the words added, each with the value added last. -/
theorem find?_ofList (es : List (Entry α)) (w : Text) :
    ((ofList es).find? w).map (·.value) = OrderedMap.last? w (es.map fun e => (e.word, e.value)) := by
  rw [ofList, sound_empty.find?_insertMany, find?_empty, Option.map_none, Option.or_none]

/-! ## Counting words -/

theorem mem_entries_iff {t : Trie α} {e : Entry α} : e ∈ t.entries ↔ ∃ n, t.wordAt? n = some e := by
  simp only [entries, List.mem_filterMap, wordAt?]
  constructor
  · rintro ⟨node, hm, he⟩
    obtain ⟨n, hn⟩ := List.mem_iff_getElem?.1 hm
    exact ⟨n, Option.bind_eq_some_iff.2 ⟨node, by simpa using hn, he⟩⟩
  · rintro ⟨n, hn⟩
    obtain ⟨node, hm, he⟩ := Option.bind_eq_some_iff.1 hn
    exact ⟨node, List.mem_iff_getElem?.2 ⟨n, by simpa using hm⟩, he⟩

/-- The words of a trie are those that are found in it. -/
theorem Sound.mem_words_iff {t : Trie α} (h : t.Sound) {w : Text} :
    w ∈ t.entries.map (·.word) ↔ (t.find? w).isSome := by
  simp only [List.mem_map, mem_entries_iff, Option.isSome_iff_exists, h.find?_eq_some_iff]
  constructor
  · rintro ⟨e, ⟨n, hn⟩, rfl⟩
    exact ⟨e, rfl, n, hn⟩
  · rintro ⟨e, rfl, n, hn⟩
    exact ⟨e, ⟨n, hn⟩, rfl⟩

/-- No word is held twice. -/
theorem Sound.nodup_words {t : Trie α} (h : t.Sound) : (t.entries.map (·.word)).Nodup := by
  rw [List.Nodup, List.pairwise_map, entries, List.pairwise_filterMap, List.pairwise_iff_getElem]
  intro i j hi hj hij e he e' he' heq
  have hw : t.walk? root e.word = some i := h.walk?_of_wordAt? i e (by
    simp only [wordAt?, Array.getElem?_eq_getElem (show i < t.nodes.size by simpa using hi)]
    simpa using he)
  have hw' : t.walk? root e'.word = some j := h.walk?_of_wordAt? j e' (by
    simp only [wordAt?, Array.getElem?_eq_getElem (show j < t.nodes.size by simpa using hj)]
    simpa using he')
  rw [heq, hw'] at hw
  cases hw
  exact Nat.lt_irrefl _ hij

end HanVariants.Trie
