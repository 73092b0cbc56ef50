import HanVariants.Proofs.Words.BreadthFirst
import HanVariants.Proofs.Words.Calls
/-!
# What an automaton is made of

Distinct words, none of them empty, make an automaton whose nodes are the prefixes of the words, each
of them once (`WordIndex.madeOf_of_distinct`). The link of a node is the longest proper suffix that is
such a prefix, its output the longest word at its end, and reading a text leads to the longest suffix
of the text that is such a prefix. The pass that makes the links level by level ends and gives these
links and outputs, and every search for a link ends.
-/

namespace HanVariants

variable {α : Type}

namespace Trie

/-! ## Which texts are paths -/

theorem isSome_walk?_addChild {t : Trie α} (h : t.Sound) {v : Text} {n : Nat} {c : Char}
    (hv : t.walk? root v = some n) (hc : t.child? n c = none) (w : Text) :
    ((t.addChild n c).walk? root w).isSome ↔ (t.walk? root w).isSome ∨ w = v ++ [c] := by
  have hn := h.walk?_lt hv
  have hx := extends_addChild hn hc
  have hs := h.addChild hn hc
  have hnew : (t.addChild n c).walk? root (v ++ [c]) = some t.nodes.size := by
    simp [walk?_concat, hx.walk? hv, child?_addChild hn]
  constructor
  · intro hw
    obtain ⟨m, hm⟩ := Option.isSome_iff_exists.1 hw
    have hlt := hs.walk?_lt hm
    rw [size_nodes_addChild] at hlt
    rcases Nat.lt_succ_iff_lt_or_eq.1 hlt with hold | rfl
    · -- an old node has an old path, and a node has only one
      obtain ⟨u, hu⟩ := h.exists_walk? m hold
      have hwu : w = u := hs.walk?_inj hm (hx.walk? hu)
      exact .inl (by rw [hwu, hu]; rfl)
    · exact .inr (hs.walk?_inj hm hnew)
  · rintro (hw | rfl)
    · obtain ⟨m, hm⟩ := Option.isSome_iff_exists.1 hw
      rw [hx.walk? hm]
      rfl
    · rw [hnew]
      rfl

/-- The empty trie has its root only. -/
theorem isSome_walk?_empty (w : Text) : (({} : Trie α).walk? root w).isSome ↔ w = [] := by
  cases w with
  | nil => simp [walk?]
  | cons c w => simp [walk?, child?, root]

/-- Spelling a text adds what is passed on the way. -/
theorem isSome_walk?_spell {t : Trie α} (h : t.Sound) {v : Text} {n : Nat}
    (hv : t.walk? root v = some n) (u w : Text) :
    ((t.spell n u).1.walk? root w).isSome ↔ (t.walk? root w).isSome ∨ ∃ s, s <+: u ∧ w = v ++ s := by
  induction u generalizing t n v with
  | nil =>
    refine ⟨.inl, ?_⟩
    rintro (hw | ⟨s, hs, rfl⟩)
    · exact hw
    · rw [List.prefix_nil.1 hs, List.append_nil, spell, hv]
      rfl
  | cons c u ih =>
    -- a prefix is empty, and then a path of old, or goes on from the child
    have hprefixes : (∃ s, s <+: c :: u ∧ w = v ++ s) ↔ w = v ∨ ∃ s, s <+: u ∧ w = v ++ [c] ++ s := by
      constructor
      · rintro ⟨s, hs, rfl⟩
        rcases List.prefix_cons_iff.1 hs with rfl | ⟨s, rfl, hrest⟩
        · exact .inl (List.append_nil v)
        · exact .inr ⟨s, hrest, by simp⟩
      · rintro (rfl | ⟨s, hs, rfl⟩)
        · exact ⟨[], List.nil_prefix, by simp⟩
        · exact ⟨c :: s, List.prefix_cons_iff.2 (.inr ⟨s, rfl, hs⟩), by simp⟩
    have hold : w = v → (t.walk? root w).isSome := by
      rintro rfl
      rw [hv]
      rfl
    rw [hprefixes]
    cases hc : t.child? n c with
    | some m =>
      have hm : t.walk? root (v ++ [c]) = some m := by rw [walk?_concat, hv]; exact hc
      rw [spell, hc, ih h hm]
      tauto
    | none =>
      have hn := h.walk?_lt hv
      have hm : (t.addChild n c).walk? root (v ++ [c]) = some t.nodes.size := by
        simp [walk?_concat, (extends_addChild hn hc).walk? hv, child?_addChild hn]
      rw [spell, hc, ih (h.addChild hn hc) hm, isSome_walk?_addChild h hv hc]
      have hchild : w = v ++ [c] → ∃ s, s <+: u ∧ w = v ++ [c] ++ s := fun e =>
        ⟨[], List.nil_prefix, by rw [e, List.append_nil]⟩
      tauto

/-- Adding a word makes its prefixes paths. -/
theorem Sound.isSome_walk?_insert {t : Trie α} (h : t.Sound) (e : Entry α) (w : Text) :
    ((t.insert e).walk? root w).isSome ↔ (t.walk? root w).isSome ∨ w <+: e.word := by
  rw [Trie.insert, walk?_setEntry, isSome_walk?_spell h (v := []) rfl]
  simp

end Trie

namespace WordIndex

/-- The paths of an index to which words were added are the paths that it had and the prefixes of the
words. -/
theorem isSome_walk?_addMany {t t' : Trie α} (h : t.Sound) {words : List (Text × α)}
    (hadd : (growing t).addMany words = .ok (growing t')) (w : Text) :
    (t'.walk? Trie.root w).isSome ↔
      (t.walk? Trie.root w).isSome ∨ ∃ p ∈ words, w <+: p.1 := by
  induction words generalizing t with
  | nil =>
    cases hadd
    simp
  | cons p words ih =>
    obtain ⟨word, value⟩ := p
    rw [addMany, add] at hadd
    split at hadd
    · cases hadd
    · next hne =>
      split at hadd
      · cases hadd
      · rw [ih (h.insert ⟨word, value, hne⟩) hadd, h.isSome_walk?_insert, List.exists_mem_cons_iff, or_assoc]

end WordIndex

namespace Automaton

open Trie

/-! ## The parts of an automaton -/

/-- The longest proper suffix of `w` that is a path, and its node. -/
structure IsLongestProperPath (t : Trie α) (w s : Text) (n : Nat) : Prop where
  suffix : s <:+ w
  ne : s ≠ w
  walk? : t.walk? root s = some n
  longest : ∀ s', s' <:+ w → s' ≠ w → (t.walk? root s').isSome → s'.length ≤ s.length

/-- The longest of the words that `w` ends with, if it ends with one of them. -/
def IsLongestWord (words : List (Text × α)) (w : Text) : Option (Entry α) → Prop
  | none => ∀ p ∈ words, ¬p.1 <:+ w
  | some e => (e.word, e.value) ∈ words ∧ e.word <:+ w ∧
      ∀ p ∈ words, p.1 <:+ w → p.1.length ≤ e.word.length

/-- The automaton is made of these words. -/
structure MadeOf (a : Automaton α) (words : List (Text × α)) : Prop where
  /-- Every node is reached from the root by one text. -/
  existsUnique_path : ∀ n, n < a.trie.nodes.size → ∃! w, a.trie.walk? root w = some n
  depth : ∀ w n, a.trie.walk? root w = some n → a.trie.depth n = w.length
  /-- The paths are the prefixes of the words; without words there is the empty one alone. -/
  isSome_walk?_iff : ∀ w, (a.trie.walk? root w).isSome ↔
    (∃ p ∈ words, w <+: p.1) ∨ words = [] ∧ w = []
  link : ∀ w n, a.trie.walk? root w = some n → n ≠ root →
    ∃ s m, a.link? n = some m ∧ IsLongestProperPath a.trie w s m
  output : ∀ w n, a.trie.walk? root w = some n → IsLongestWord words w (a.output? n)
  /-- Reading a text leads to the node of its longest suffix that is a path. -/
  run : ∀ x, ∃ w, a.trie.IsLongestPath x w (a.run root x)
  /-- The pass that makes the links level by level ends, and makes this automaton. -/
  pass : ∀ edges, ListsEdges a.trie edges → (∃ p, Pass.Ends a.trie edges (.start a.trie edges) p) ∧
    ∀ p, Pass.Ends a.trie edges (.start a.trie edges) p → p.Makes a

variable {t : Trie α} {w : Text} {n : Nat}

theorem exists_link? (h : t.Sound) (hw : t.walk? root w = some n) (hr : n ≠ root) :
    ∃ s m, (ofTrie t).link? n = some m ∧ IsLongestProperPath t w s m := by
  cases w with
  | nil => exact absurd (Option.some.inj hw).symm hr
  | cons c x =>
    obtain ⟨s, hs⟩ := isLongestPath_run h x
    refine ⟨s, _, link?_of_walk? h hw, hs.suffix.trans (List.suffix_cons c x), ?_, hs.walk?, ?_⟩
    · rintro rfl
      have hle := hs.suffix.length_le
      rw [List.length_cons] at hle
      omega
    · intro s' hs' hne
      rcases List.suffix_cons_iff.1 hs' with rfl | hs'
      · exact absurd rfl hne
      · exact hs.longest s' hs'

/-- Reading a path leads to its node. -/
theorem run_of_walk? (h : t.Sound) (hw : t.walk? root w = some n) : (ofTrie t).run root w = n := by
  have hnodes := run_cons_linksAt h w
  rw [← cons_linksAt h hw, List.cons.injEq] at hnodes
  exact hnodes.1.symm

theorem isLongestWord_output? {words : List (Text × α)} (h : t.Holds words)
    (hw : t.walk? root w = some n) : IsLongestWord words w ((ofTrie t).output? n) := by
  have hmem : ∀ p ∈ words, (t.find? p.1).isSome := fun p hp =>
    (h.isSome_find?_iff p.1).2 (List.mem_map.2 ⟨p, hp, rfl⟩)
  rw [← run_of_walk? h.sound hw, output?_run h.sound]
  cases hf : w.tails.findSome? t.find? with
  | none =>
    intro p hp hsuffix
    have hnone := Dictionary.findSome?_tails_eq_none hf hsuffix
    have hsome := hmem p hp
    rw [hnone] at hsome
    cases hsome
  | some e =>
    obtain ⟨s, hs, he, hlongest⟩ := Dictionary.findSome?_tails_eq_some hf
    obtain ⟨rfl, -⟩ := h.sound.find?_eq_some_iff.1 he
    refine ⟨?_, hs, fun p hp hsuffix => ?_⟩
    · have hvalue := h.find? e.word
      rw [he, Option.map_some] at hvalue
      exact (OrderedMap.last?_eq_some_iff h.nodup).1 hvalue.symm
    · by_contra hlt
      have hsome := hmem p hp
      rw [hlongest p.1 hsuffix (Nat.lt_of_not_le hlt)] at hsome
      cases hsome

/-- A trie that has just some words gives an automaton made of them, if its paths are their prefixes. -/
theorem madeOf_ofTrie {words : List (Text × α)} (h : t.Holds words)
    (hpaths : ∀ w, (t.walk? root w).isSome ↔ (∃ p ∈ words, w <+: p.1) ∨ words = [] ∧ w = []) :
    (ofTrie t).MadeOf words where
  existsUnique_path n hn := by
    obtain ⟨w, hw⟩ := h.sound.exists_walk? n hn
    exact ⟨w, hw, fun w' hw' => h.sound.walk?_inj hw' hw⟩
  depth _ _ hw := h.sound.depth_walk? hw
  isSome_walk?_iff := hpaths
  link _ _ hw hr := exists_link? h.sound hw hr
  output _ _ hw := isLongestWord_output? h hw
  run := isLongestPath_run h.sound
  pass _ he := Pass.ends_start h.sound he

end Automaton

namespace WordIndex

/-- Distinct words, none of them empty, are all added, and make an automaton of these words. -/
theorem madeOf_of_distinct (words : List (Text × α)) (hd : (words.map (·.1)).Nodup)
    (hne : ∀ w ∈ words, w.1 ≠ []) :
    ∃ index : WordIndex α, empty.addMany words = .ok index ∧ index.close.automaton.MadeOf words := by
  obtain ⟨t, hadd, hs, hfind⟩ :=
    addMany_growing Trie.sound_empty hd hne fun w _ => Trie.find?_empty w.1
  have hholds : t.Holds words := ⟨hs, hd, hne, fun w => by simp [hfind]⟩
  refine ⟨growing t, hadd, Automaton.madeOf_ofTrie hholds fun w => ?_⟩
  rw [isSome_walk?_addMany Trie.sound_empty hadd, Trie.isSome_walk?_empty]
  cases words with
  | nil => simp
  | cons p words =>
    -- the empty path is a prefix of the first word
    have hnil : w = [] → ∃ p' ∈ p :: words, w <+: p'.1 := fun e =>
      ⟨p, List.mem_cons_self, e ▸ List.nil_prefix⟩
    simp only [reduceCtorEq, false_and, or_false]
    exact ⟨fun hw => hw.elim hnil id, .inr⟩

theorem madeOf_of_distinct_he_she :
    ([(['h', 'e'], 1), (['s', 'h', 'e'], 2)].map (·.1)).Nodup ∧
      (∀ w ∈ [(['h', 'e'], 1), (['s', 'h', 'e'], 2)], w.1 ≠ []) ∧
      ∃ index : WordIndex Nat, empty.addMany [(['h', 'e'], 1), (['s', 'h', 'e'], 2)] = .ok index ∧
        index.close.automaton.MadeOf [(['h', 'e'], 1), (['s', 'h', 'e'], 2)] ∧
        ∃ p, Automaton.Pass.Ends index.close.automaton.trie (Automaton.edgesOf index.close.automaton.trie)
          (.start index.close.automaton.trie (Automaton.edgesOf index.close.automaton.trie)) p ∧
          p.Makes index.close.automaton := by
  have hd : ([(['h', 'e'], 1), (['s', 'h', 'e'], 2)].map (·.1)).Nodup := by decide
  have hne : ∀ w ∈ [(['h', 'e'], 1), (['s', 'h', 'e'], 2)], w.1 ≠ [] := by decide
  obtain ⟨index, hadd, hmade⟩ := madeOf_of_distinct [(['h', 'e'], 1), (['s', 'h', 'e'], 2)] hd hne
  obtain ⟨⟨p, hends⟩, hmakes⟩ := hmade.pass _ (Automaton.listsEdges_edgesOf _)
  exact ⟨hd, hne, index, hadd, hmade, p, hends, hmakes p hends⟩

end WordIndex

end HanVariants
