import HanVariants.Words.Search
import HanVariants.Text.Quoted
/-!
# Word indexes

An index first takes words and then searches texts for them. The first search closes it: the
automaton is made, and no word can be added any more. A search starts at a position of the text; a
negative position counts from the end, and the search then reads the end of the text first and the
whole text after it.
-/

namespace HanVariants

/-- A word found at a position that may lie before the start of the text. -/
structure Match (α : Type) where
  start : Int
  stop : Int
  value : α
deriving Repr

inductive WordIndex (α : Type) where
  /-- Words can still be added. -/
  | growing (trie : Trie α)
  /-- The automaton is made. -/
  | ready (automaton : Automaton α)

namespace WordIndex

variable {α : Type}

inductive AddError where
  | closed
  | emptyWord
  | duplicate (word : Text)
deriving DecidableEq, Repr

def AddError.message : AddError → Text
  | closed => "AhoCorasick 已 build()，不可再 add()".toList
  | emptyWord => "AhoCorasick pattern 不可為空字串".toList
  | duplicate word => "重複的 pattern: ".toList ++ Text.quoted word

/-- A position before the first character that a negative start can reach. -/
inductive StartError where
  | beforeText
deriving DecidableEq, Repr

def StartError.message : StartError → Text
  | beforeText => "string index out of range".toList

def empty : WordIndex α := growing {}

instance : Inhabited (WordIndex α) := ⟨empty⟩

/-- The number of words added. -/
def size : WordIndex α → Nat
  | growing t => t.size
  | ready a => a.size

/-- Adds a word that is not there yet; an index that cannot take the word is left as it is. -/
def add (word : Text) (value : α) : WordIndex α → Except AddError (WordIndex α)
  | ready _ => .error .closed
  | growing t =>
    if h : word = [] then .error .emptyWord
    else if (t.find? word).isSome then .error (.duplicate word)
    else .ok (growing (t.insert ⟨word, value, h⟩))

/-- Adds words one after the other until one is refused. -/
def addMany (index : WordIndex α) : List (Text × α) → Except AddError (WordIndex α)
  | [] => .ok index
  | (word, value) :: words => do addMany (← index.add word value) words

/-- The automaton of the words added so far. -/
def automaton : WordIndex α → Automaton α
  | growing t => .ofTrie t
  | ready a => a

def close (index : WordIndex α) : WordIndex α := ready index.automaton

/-- The closed index of words that stand for their places in the list. -/
def ofWords (words : List Text) : Except AddError (WordIndex Nat) :=
  (empty.addMany words.zipIdx).map close

/-! ## Searching from a position -/

/-- The characters that are read from a start on: those before the start of the text, when the
start is negative, are the last ones of the text. -/
def readFrom (t : Text) (start : Int) : Except StartError Text :=
  if 0 ≤ start then .ok (t.drop start.toNat)
  else if -start ≤ t.length then .ok (t.drop (t.length + start).toNat ++ t)
  else .error .beforeText

/-- The matches in the segments of a text that starts at a position. -/
def matchesFrom (position : Int) : List (Segment α) → List (Match α)
  | [] => []
  | .copied t :: segments => matchesFrom (position + t.length) segments
  | .matched word value :: segments =>
    ⟨position, position + word.length, value⟩ :: matchesFrom (position + word.length) segments

/-- The first match from a start on. -/
def find (index : WordIndex α) (t : Text) (start : Int) : Except StartError (Option (Match α)) := do
  let window ← readFrom t start
  return (index.automaton.search window).map fun h => ⟨start + h.start, start + h.stop, h.value⟩

/-- Every match from a start on, each search starting where the match before it stops. -/
def findAll (index : WordIndex α) (t : Text) (start : Int) :
    Except StartError (List (Match α)) := do
  let window ← readFrom t start
  return matchesFrom start (index.automaton.segments window)

/-! ## Calls -/

/-- What an index is asked to do. -/
inductive Call (α : Type) where
  | add (word : Text) (value : α)
  | close
  | size
  | find (t : Text) (start : Int)
  | findAll (t : Text) (start : Int)

inductive Answer (α : Type) where
  | size (n : Nat)
  | found (m : Option (Match α))
  | foundAll (ms : List (Match α))
  | refused (e : AddError)
  | unreachable (e : StartError)

def Answer.ofFind : Except StartError (Option (Match α)) → Answer α
  | .ok m => found m
  | .error e => unreachable e

def Answer.ofFindAll : Except StartError (List (Match α)) → Answer α
  | .ok ms => foundAll ms
  | .error e => unreachable e

/-- The index after a call, and the answer. A search closes the index even if its start cannot be
reached; but where the start is at or past the end of the text, there is nothing to search all of,
and the index stays as it is. -/
def run (index : WordIndex α) : Call α → WordIndex α × Answer α
  | .add word value =>
    match index.add word value with
    | .ok index => (index, .size index.size)
    | .error e => (index, .refused e)
  | .close => (index.close, .size index.size)
  | .size => (index, .size index.size)
  | .find t start =>
    let index := index.close
    (index, .ofFind (index.find t start))
  | .findAll t start =>
    let index := if start < t.length then index.close else index
    (index, .ofFindAll (index.findAll t start))

/-- The index after calls, and their answers in order. -/
def runAll (index : WordIndex α) : List (Call α) → WordIndex α × List (Answer α)
  | [] => (index, [])
  | call :: calls =>
    let (index, answer) := index.run call
    let (index, answers) := index.runAll calls
    (index, answer :: answers)

end WordIndex

end HanVariants
