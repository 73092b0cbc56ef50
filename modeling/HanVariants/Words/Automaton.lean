import HanVariants.Words.Trie
/-!
# Automata that find words

Reading a text character by character, an automaton keeps the node of the longest suffix read so
far that begins some word. Beside each node stand its links: the nodes of the shorter suffixes,
longest first, down to the root. When the node has no edge for the next character, the first of its
links that has one is followed instead, so that no character is read twice.

The links of a node come from those of the node it hangs from: each of them moves along the same
character, and the root comes last.
-/

namespace HanVariants

structure Automaton (α : Type) where
  trie : Trie α
  /-- For each node, the nodes of the proper suffixes of what it spells, longest first. -/
  links : Array (List Nat)
  /-- For each node, the longest word that is a suffix of what it spells. -/
  outputs : Array (Option (Entry α))

namespace Automaton

variable {α : Type}

/-- The links of a node, from those of all nodes before it. -/
def linksOf (t : Trie α) (links : Array (List Nat)) (node : Trie.Node α) : List Nat :=
  match node.origin with
  | none => []
  | some (parent, c) => (links.getD parent []).filterMap (t.child? · c) ++ [Trie.root]

def linkTable (t : Trie α) : Array (List Nat) :=
  t.nodes.foldl (fun links node => links.push (linksOf t links node)) #[]

def ofTrie (t : Trie α) : Automaton α :=
  let links := linkTable t
  ⟨t, links, links.mapIdx fun n ns => (n :: ns).findSome? t.wordAt?⟩

/-- The automaton of the entries; the last entry of a word wins. -/
def ofList (es : List (Entry α)) : Automaton α := ofTrie (Trie.ofList es)

/-- The number of words. -/
def size (a : Automaton α) : Nat := a.trie.size

def linksAt (a : Automaton α) (n : Nat) : List Nat := a.links.getD n []

/-- The node of the longest proper suffix; the root has none. -/
def link? (a : Automaton α) (n : Nat) : Option Nat := (a.linksAt n).head?

def output? (a : Automaton α) (n : Nat) : Option (Entry α) := a.outputs.getD n none

/-- Where reading the character `c` leads from the node `n`. -/
def step (a : Automaton α) (n : Nat) (c : Char) : Nat :=
  ((n :: a.linksAt n).findSome? (a.trie.child? · c)).getD Trie.root

/-- Where reading a text leads from the node `n`. -/
def run (a : Automaton α) (n : Nat) (t : Text) : Nat := t.foldl a.step n

end Automaton

end HanVariants
