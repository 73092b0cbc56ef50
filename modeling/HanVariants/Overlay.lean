import HanVariants.OrderedMap
import HanVariants.Rule.Global
import HanVariants.Words.Search
/-!
# Overlays

An overlay changes, for one text, the words that a converter replaces: words it adds, and words it
suppresses. The later of two additions of a word wins, and a suppressed word stays as it stands,
also where it would be the result. What is found cannot be taken out of an automaton, so a
suppressed word is found and then left alone.
-/

namespace HanVariants

/-- The pair as an entry; no word is empty. -/
def Entry.ofPair? {α : Type} : Text × α → Option (Entry α)
  | ([], _) => none
  | (c :: word, value) => some ⟨c :: word, value, List.cons_ne_nil c word⟩

/-- The automaton of the pairs that have a source; the last pair of a source wins. -/
def Automaton.ofPairs {α : Type} (pairs : List (Text × α)) : Automaton α :=
  ofList (pairs.filterMap Entry.ofPair?)

structure Overlay where
  /-- The words added, in the order in which they first came. -/
  adds : OrderedMap Text Text := {}
  /-- The words suppressed, each once. -/
  suppressed : List Text := []
  /-- The automaton of the words added. -/
  automaton : Automaton Text := .ofPairs adds.toList

namespace Overlay

/-- The words added by edits; an edit without a source adds nothing. -/
def addsOf (edits : List Edit) : OrderedMap Text Text :=
  .ofList (edits.filterMap fun
    | .add [] _ | .remove _ => none
    | .add source target => some (source, target))

/-- The words suppressed by edits. -/
def suppressedOf (edits : List Edit) : List Text :=
  (edits.filterMap fun
    | .remove [] | .add _ _ => none
    | .remove source => some source).eraseDups

def ofEdits (edits : List Edit) : Overlay where
  adds := addsOf edits
  suppressed := suppressedOf edits

def isEmpty (o : Overlay) : Bool := o.adds.isEmpty && o.suppressed.isEmpty

/-- Whether replacing `source` by `target` is suppressed. -/
def suppresses (o : Overlay) (source target : Text) : Bool :=
  o.suppressed.contains target || o.suppressed.contains source

end Overlay

end HanVariants
