import HanVariants.Text.Basic
import Std.Data.TreeMap
/-!
# Tries of words

A trie holds words by their characters: a node stands for the text spelled from the root to it,
and an edge adds one character. Nodes are numbered in the order in which they were made, so that a
node comes after the one it hangs from. A node where a word ends holds the word's entry.
-/

namespace HanVariants

/-- A word and the value it stands for. A word has at least one character, so that finding it
always moves a reader on. -/
structure Entry (α : Type) where
  word : Text
  value : α
  word_ne_nil : word ≠ []

namespace Trie

structure Node (α : Type) where
  /-- The node this one hangs from and the character between them; the root has none. -/
  origin : Option (Nat × Char)
  /-- The number of characters spelled from the root to here. -/
  depth : Nat
  children : Std.TreeMap Char Nat := {}
  /-- The word that is spelled here. -/
  word? : Option (Entry α) := none

end Trie

structure Trie (α : Type) where
  nodes : Array (Trie.Node α) := #[{ origin := none, depth := 0 }]

namespace Trie

variable {α : Type}

instance : Inhabited (Trie α) := ⟨{}⟩

/-- The number of the root. -/
def root : Nat := 0

def child? (t : Trie α) (n : Nat) (c : Char) : Option Nat :=
  t.nodes[n]?.bind fun node => node.children[c]?

def depth (t : Trie α) (n : Nat) : Nat := (t.nodes[n]?.map (·.depth)).getD 0

/-- The entry of the word that is spelled at a node. -/
def wordAt? (t : Trie α) (n : Nat) : Option (Entry α) := t.nodes[n]?.bind (·.word?)

/-- The node reached from `n` by the characters of a text. -/
def walk? (t : Trie α) : Nat → Text → Option Nat
  | n, [] => some n
  | n, c :: w => (t.child? n c).bind fun m => t.walk? m w

/-- The entry of a word. -/
def find? (t : Trie α) (w : Text) : Option (Entry α) := (t.walk? root w).bind t.wordAt?

/-- The entries of a trie, by the numbers of their nodes. -/
def entries (t : Trie α) : List (Entry α) := t.nodes.toList.filterMap (·.word?)

/-- The number of words in a trie. -/
def size (t : Trie α) : Nat := t.entries.length

/-! ## Adding words -/

/-- Hangs a new node from `n` by `c`; it gets the next number. -/
def addChild (t : Trie α) (n : Nat) (c : Char) : Trie α :=
  let node : Node α := { origin := some (n, c), depth := t.depth n + 1 }
  ⟨(t.nodes.modify n fun parent =>
    { parent with children := parent.children.insert c t.nodes.size }).push node⟩

/-- Spells a text from the node `n`, making the nodes that are missing; gives the last one. -/
def spell (t : Trie α) : Nat → Text → Trie α × Nat
  | n, [] => (t, n)
  | n, c :: w =>
    match t.child? n c with
    | some m => t.spell m w
    | none => (t.addChild n c).spell t.nodes.size w

def setEntry (t : Trie α) (n : Nat) (e : Entry α) : Trie α :=
  ⟨t.nodes.modify n fun node => { node with word? := some e }⟩

/-- Adds a word; a word that is there already gets the new value. -/
def insert (t : Trie α) (e : Entry α) : Trie α :=
  let (t, n) := t.spell root e.word
  t.setEntry n e

def insertMany (t : Trie α) (es : List (Entry α)) : Trie α := es.foldl insert t

def ofList (es : List (Entry α)) : Trie α := insertMany {} es

/-! ## What an addition changes -/

@[simp]
theorem size_nodes_addChild (t : Trie α) (n : Nat) (c : Char) :
    (t.addChild n c).nodes.size = t.nodes.size + 1 := by
  simp [addChild]

/-- A new child is the only new edge, and leads to the node with the next number. -/
theorem child?_addChild {t : Trie α} {n : Nat} (hn : n < t.nodes.size) (c : Char) (m : Nat)
    (d : Char) :
    (t.addChild n c).child? m d = if m = n ∧ d = c then some t.nodes.size else t.child? m d := by
  simp only [child?, addChild, Array.getElem?_push, Array.size_modify, Array.getElem?_modify]
  by_cases hm : m = t.nodes.size
  · simp [hm, show t.nodes.size ≠ n by omega]
  · by_cases hmn : m = n
    · subst hmn
      by_cases hd : d = c
      · simp [hm, hd, Array.getElem?_eq_getElem hn]
      · simp [hm, hd, Ne.symm hd, Array.getElem?_eq_getElem hn, Std.TreeMap.getElem?_insert]
    · simp [hm, hmn, Ne.symm hmn]

/-- What does not concern edges is as before at the nodes that were there. -/
theorem bind_nodes_addChild {β : Type} {f : Node α → Option β}
    (hf : ∀ node children, f { node with children } = f node) (t : Trie α) (n : Nat) (c : Char) (m : Nat) :
    (t.addChild n c).nodes[m]?.bind f =
      if m = t.nodes.size then f { origin := some (n, c), depth := t.depth n + 1 } else t.nodes[m]?.bind f := by
  simp only [addChild, Array.getElem?_push, Array.size_modify, Array.getElem?_modify]
  by_cases hm : m = t.nodes.size
  · simp [hm]
  · by_cases hmn : n = m
    · cases t.nodes[m]? <;> simp [hm, hmn, hf]
    · simp [hm, hmn]

theorem wordAt?_addChild (t : Trie α) (n : Nat) (c : Char) (m : Nat) :
    (t.addChild n c).wordAt? m = t.wordAt? m := by
  refine (bind_nodes_addChild (fun _ _ => rfl) t n c m).trans ?_
  split
  · next hm => simp [wordAt?, hm]
  · rfl

/-- What does not concern words is as before. -/
theorem bind_nodes_setEntry {β : Type} {f : Node α → Option β}
    (hf : ∀ node word?, f { node with word? } = f node) (t : Trie α) (n : Nat) (e : Entry α) (m : Nat) :
    (t.setEntry n e).nodes[m]?.bind f = t.nodes[m]?.bind f := by
  simp only [setEntry, Array.getElem?_modify]
  by_cases h : n = m
  · cases t.nodes[m]? <;> simp [h, hf]
  · simp [h]

@[simp]
theorem child?_setEntry (t : Trie α) (n : Nat) (e : Entry α) (m : Nat) (c : Char) :
    (t.setEntry n e).child? m c = t.child? m c :=
  bind_nodes_setEntry (fun _ _ => rfl) t n e m

theorem wordAt?_setEntry {t : Trie α} {n : Nat} (hn : n < t.nodes.size) (e : Entry α) (m : Nat) :
    (t.setEntry n e).wordAt? m = if m = n then some e else t.wordAt? m := by
  simp only [wordAt?, setEntry, Array.getElem?_modify]
  by_cases h : n = m
  · subst h
    simp [Array.getElem?_eq_getElem hn]
  · simp [h, Ne.symm h]

end Trie

end HanVariants
