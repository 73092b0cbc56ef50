import HanVariants.Words.Automaton
import HanVariants.Proofs.Words.Paths
import Mathlib.Data.List.Infix
/-!
# The links of an automaton

The suffixes of a text that are paths of the trie, the longest first, are what an automaton knows
about the text. `run_cons_linksAt` says that the node reached by reading a text and its links are
the nodes of these suffixes; so the node is that of the longest one (`isLongestPath_run`), and its
output is the longest word at the end of the text (`output?_run`).
-/

namespace HanVariants

variable {α : Type}

namespace Trie

/-- The nodes of the suffixes of a text that are paths, those of longer suffixes first. -/
def suffixNodes (t : Trie α) (x : Text) : List Nat := x.tails.filterMap (t.walk? root)

theorem suffixNodes_nil (t : Trie α) : t.suffixNodes [] = [root] := rfl

theorem suffixNodes_cons (t : Trie α) (c : Char) (x : Text) :
    t.suffixNodes (c :: x) = (t.walk? root (c :: x)).toList ++ t.suffixNodes x := by
  cases h : t.walk? root (c :: x) <;> simp [suffixNodes, h]

theorem suffixNodes_concat (t : Trie α) (x : Text) (c : Char) :
    t.suffixNodes (x ++ [c]) = (t.suffixNodes x).filterMap (t.child? · c) ++ [root] := by
  induction x with
  | nil =>
    rw [List.nil_append, suffixNodes_cons, suffixNodes_nil]
    cases h : t.child? root c <;> simp [walk?, h]
  | cons d x ih =>
    rw [List.cons_append, suffixNodes_cons, suffixNodes_cons, List.filterMap_append, ih,
      ← List.cons_append, walk?_concat, List.append_assoc]
    cases t.walk? root (d :: x) with
    | none => rfl
    | some n => cases h : t.child? n c <;> simp [h]

/-- The longest suffix of `x` that is a path, and its node. -/
structure IsLongestPath (t : Trie α) (x w : Text) (n : Nat) : Prop where
  suffix : w <:+ x
  walk? : t.walk? root w = some n
  longest : ∀ s, s <:+ x → (t.walk? root s).isSome → s.length ≤ w.length

/-- The first of the nodes is that of the longest suffix. -/
theorem exists_isLongestPath {t : Trie α} {x : Text} {n : Nat} {ns : List Nat}
    (h : t.suffixNodes x = n :: ns) : ∃ w, t.IsLongestPath x w n := by
  induction x with
  | nil =>
    rw [suffixNodes_nil, List.cons.injEq] at h
    exact ⟨[], List.nil_suffix, by simp [Trie.walk?, h.1], fun s hs _ => hs.length_le⟩
  | cons c x ih =>
    rw [suffixNodes_cons] at h
    cases hw : t.walk? root (c :: x) with
    | some m =>
      simp only [hw, Option.toList_some, List.singleton_append, List.cons.injEq] at h
      exact ⟨c :: x, List.suffix_rfl, by rw [hw, h.1], fun s hs _ => hs.length_le⟩
    | none =>
      simp only [hw, Option.toList_none, List.nil_append] at h
      obtain ⟨w, hs, hn, hl⟩ := ih h
      refine ⟨w, hs.trans (List.suffix_cons c x), hn, fun s hs hp => ?_⟩
      rcases List.suffix_cons_iff.1 hs with rfl | hs
      · simp [hw] at hp
      · exact hl s hs hp

end Trie

namespace Automaton

open Trie

@[simp]
theorem trie_ofTrie (t : Trie α) : (ofTrie t).trie = t := rfl

/-! ## The table of links -/

/-- The links of a node depend on the links of earlier nodes only. -/
theorem linksOf_push {t : Trie α} (h : t.Sound) (links : Array (List Nat)) (ns : List Nat) {n : Nat}
    (hn : n < t.nodes.size) (hl : n ≤ links.size) :
    linksOf t (links.push ns) t.nodes[n] = linksOf t links t.nodes[n] := by
  unfold linksOf
  cases ho : t.nodes[n].origin with
  | none => rfl
  | some o =>
    obtain ⟨p, c⟩ := o
    have hp : p < n := h.lt_of_origin? n p c (by simp [origin?, Array.getElem?_eq_getElem hn, ho])
    simp [Array.getD_eq_getD_getElem?, Array.getElem?_push, show p ≠ links.size by omega]

/-- Every entry of the table comes from the table itself. -/
theorem linkTable_spec {t : Trie α} (h : t.Sound) :
    (linkTable t).size = t.nodes.size ∧
      ∀ n (hn : n < t.nodes.size), (linkTable t).getD n [] = linksOf t (linkTable t) t.nodes[n] := by
  have inv : (linkTable t).size = t.nodes.size ∧ ∀ n (hn : n < t.nodes.size), n < t.nodes.size →
      (linkTable t).getD n [] = linksOf t (linkTable t) t.nodes[n] := by
    unfold linkTable
    apply Array.foldl_induction (fun k (links : Array (List Nat)) => links.size = k ∧
      ∀ n (hn : n < t.nodes.size), n < k → links.getD n [] = linksOf t links t.nodes[n])
    · exact ⟨rfl, by intro n _ hn; omega⟩
    · rintro ⟨k, hk⟩ links ⟨hsize, hlinks⟩
      -- what is pushed now is read by no earlier entry
      change links.size = k at hsize
      refine ⟨by simp [hsize], fun n hn hnk => ?_⟩
      change n < k + 1 at hnk
      rw [linksOf_push h links _ hn (by omega), Array.getD_eq_getD_getElem?, Array.getElem?_push, hsize]
      by_cases e : n = k
      · simp [e]
      · rw [if_neg e, ← Array.getD_eq_getD_getElem?]
        exact hlinks n hn (by change n < k; omega)
  exact ⟨inv.1, fun n hn => inv.2 n hn hn⟩

theorem linksAt_root {t : Trie α} (h : t.Sound) : (ofTrie t).linksAt root = [] := by
  have := (linkTable_spec h).2 root h.root_lt
  have ho := h.origin?_root
  simp only [origin?, Array.getElem?_eq_getElem h.root_lt, Option.bind_some] at ho
  rw [linksOf, ho] at this
  exact this

theorem linksAt_child {t : Trie α} (h : t.Sound) {p n : Nat} {c : Char} (hc : t.child? p c = some n) :
    (ofTrie t).linksAt n = ((ofTrie t).linksAt p).filterMap (t.child? · c) ++ [root] := by
  have ho := h.origin?_of_child? p c n hc
  have hn := lt_of_origin?_eq_some ho
  have := (linkTable_spec h).2 n hn
  simp only [origin?, Array.getElem?_eq_getElem hn, Option.bind_some] at ho
  rw [linksOf, ho] at this
  exact this

/-! ## What is known after reading a text -/

/-- A node and its links are the nodes of the suffixes of its path. -/
theorem cons_linksAt {t : Trie α} (h : t.Sound) {w : Text} {n : Nat}
    (hw : t.walk? root w = some n) : n :: (ofTrie t).linksAt n = t.suffixNodes w := by
  induction w using List.reverseRecOn generalizing n with
  | nil =>
    simp only [walk?, Option.some.injEq] at hw
    rw [← hw, linksAt_root h, suffixNodes_nil]
  | append_singleton u c ih =>
    obtain ⟨p, hp, hc⟩ := walk?_concat_eq_some hw
    rw [suffixNodes_concat, ← ih hp, linksAt_child h hc]
    simp only [List.filterMap_cons, hc, List.cons_append]

/-- The suffixes of any text that are paths are those of one node. -/
theorem exists_cons_linksAt {t : Trie α} (h : t.Sound) (x : Text) :
    ∃ n, t.suffixNodes x = n :: (ofTrie t).linksAt n := by
  induction x with
  | nil => exact ⟨root, by rw [suffixNodes_nil, linksAt_root h]⟩
  | cons c x ih =>
    cases hw : t.walk? root (c :: x) with
    | some n => exact ⟨n, (cons_linksAt h hw).symm⟩
    | none => simpa [suffixNodes_cons, hw] using ih

theorem run_concat (a : Automaton α) (n : Nat) (x : Text) (c : Char) :
    a.run n (x ++ [c]) = a.step (a.run n x) c := by
  simp [run]

/-- Reading a text leads to the node of its longest suffix that is a path. -/
theorem head?_suffixNodes {t : Trie α} (h : t.Sound) (x : Text) :
    (t.suffixNodes x).head? = some ((ofTrie t).run root x) := by
  induction x using List.reverseRecOn with
  | nil => rfl
  | append_singleton x c ih =>
    -- a step tries the node and then its links, just as the next suffixes are made from these
    obtain ⟨n, hn⟩ := exists_cons_linksAt h x
    rw [hn, List.head?_cons, Option.some.injEq] at ih
    rw [run_concat, ← ih, suffixNodes_concat, hn, List.head?_append, List.head?_filterMap, step]
    rw [trie_ofTrie]
    cases (n :: (ofTrie t).linksAt n).findSome? (t.child? · c) <;> rfl

/-- The node reached and its links are the nodes of all suffixes that are paths. -/
theorem run_cons_linksAt {t : Trie α} (h : t.Sound) (x : Text) :
    t.suffixNodes x = (ofTrie t).run root x :: (ofTrie t).linksAt ((ofTrie t).run root x) := by
  obtain ⟨n, hn⟩ := exists_cons_linksAt h x
  have := head?_suffixNodes h x
  rw [hn, List.head?_cons, Option.some.injEq] at this
  rw [hn, this]

theorem isLongestPath_run {t : Trie α} (h : t.Sound) (x : Text) :
    ∃ w, t.IsLongestPath x w ((ofTrie t).run root x) :=
  exists_isLongestPath (run_cons_linksAt h x)

/-- No path that ends with the text is longer than the depth reached. -/
theorem length_le_depth_run {t : Trie α} (h : t.Sound) {x s : Text} (hs : s <:+ x)
    (hp : (t.walk? root s).isSome) : s.length ≤ t.depth ((ofTrie t).run root x) := by
  obtain ⟨w, hw⟩ := isLongestPath_run h x
  rw [h.depth_walk? hw.walk?]
  exact hw.longest s hs hp

/-- The output of a node is the first word at the node and its links. -/
theorem output?_eq {t : Trie α} (h : t.Sound) {n : Nat} (hn : n < t.nodes.size) :
    (ofTrie t).output? n = (n :: (ofTrie t).linksAt n).findSome? t.wordAt? := by
  rw [← (linkTable_spec h).1] at hn
  have hl : (ofTrie t).linksAt n = (linkTable t)[n] := by
    show (linkTable t).getD n [] = (linkTable t)[n]
    rw [Array.getD_eq_getD_getElem?, Array.getElem?_eq_getElem hn, Option.getD_some]
  rw [hl, output?, Array.getD_eq_getD_getElem?]
  simp only [ofTrie, Array.getElem?_mapIdx, Array.getElem?_eq_getElem hn, Option.map_some, Option.getD_some]

/-- The output of the node reached is the longest word that the text ends with. -/
theorem output?_run {t : Trie α} (h : t.Sound) (x : Text) :
    (ofTrie t).output? ((ofTrie t).run root x) = x.tails.findSome? t.find? := by
  obtain ⟨w, hw⟩ := isLongestPath_run h x
  rw [output?_eq h (h.walk?_lt hw.walk?), ← run_cons_linksAt h, suffixNodes,
    ← List.head?_filterMap, List.filterMap_filterMap, List.head?_filterMap]
  rfl

end Automaton

end HanVariants
