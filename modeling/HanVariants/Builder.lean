import HanVariants.Converter
import HanVariants.Journal.Channels
import HanVariants.Markup.Page
import HanVariants.Table.Basic
import HanVariants.Text.Lines
/-!
# Building converters

A builder gathers what a converter is to replace: tables, of which a later one wins over an earlier
one, single pairs added, which win over the tables, and words removed, whatever the order of the
calls. Rules are resolved for the target at the time they are added. A call that adds several pairs
adds them one by one, and those before the first refused pair stay.
-/

namespace HanVariants

structure Builder where
  target : Variant := .zh
  tables : List Table := []
  /-- The targets of the words added. -/
  adds : OrderedMap Text Text := {}
  /-- The words removed, with the targets named when they were. -/
  removes : OrderedMap Text Text := {}
deriving Repr

namespace Builder

instance : Inhabited Builder := ⟨{}⟩

/-- A pair without a source can be neither added nor removed. -/
inductive PairError where
  | emptySource
deriving DecidableEq, Repr

def PairError.message : PairError → Text
  | emptySource => "Conv pair should have non-empty source.".toList

/-- What a call leaves behind: the builder, the error that ended it, and what it told. -/
structure Outcome where
  builder : Builder
  error? : Option PairError := none
  journal : List Journal.Entry := []

namespace Outcome

/-- Goes on with another call, unless this one ended in an error. -/
def andThen (o : Outcome) (next : Builder → Outcome) : Outcome :=
  match o.error? with
  | some _ => o
  | none =>
    let o' := next o.builder
    { o' with journal := o.journal ++ o'.journal }

end Outcome

/-- The calls for the items of a list, up to the first error. -/
def each {α : Type} (call : α → Builder → Outcome) : List α → Builder → Outcome
  | [], b => { builder := b }
  | x :: xs, b => (call x b).andThen (each call xs)

def channel : Text := Journal.channelName (some "converter.builder".toList)

/-- A debug message of a builder. -/
def note (t : Text) : Journal.Entry := ⟨channel, Journal.debug, .text t⟩

def setTarget (b : Builder) (v : Variant) : Builder := { b with target := v }

def addTable (b : Builder) (t : Table) : Builder := { b with tables := b.tables ++ [t] }

def addTables (b : Builder) (ts : List Table) : Builder := { b with tables := b.tables ++ ts }

/-! ## Pairs and rules -/

def addPair (source target : Text) (b : Builder) : Outcome :=
  if source = [] then { builder := b, error? := some .emptySource }
  else { builder := { b with adds := b.adds.insert source target } }

def removePair (source target : Text) (b : Builder) : Outcome :=
  if source = [] then { builder := b, error? := some .emptySource }
  else { builder := { b with removes := b.removes.insert source target } }

/-- Adds the pairs of a rule for the target. -/
def addRule (r : Rule) (b : Builder) : Outcome :=
  each (fun (source, target) => addPair source target) (r.pairs b.target).toList b

/-- Removes the sources of a rule for the target. -/
def removeRule (r : Rule) (b : Builder) : Outcome :=
  each (fun (source, target) => removePair source target) (r.pairs b.target).toList b

/-- Adds the rule on a line. A blank line says nothing, and one that is no rule is noted. -/
def addLine (line : Text) (b : Builder) : Outcome :=
  let line := Text.strip line
  if line = [] then { builder := b }
  else match Rule.parse line with
    | .ok r => addRule r b
    | .error _ =>
      { builder := b, journal := [note ("Skipped invalid conv line: ".toList ++ Text.quoted line)] }

/-- Adds the rules of a text that holds one on each line. -/
def addLines (t : Text) (b : Builder) : Outcome := each addLine (Text.lines t) b

def addGlobalRule : GlobalRule → Builder → Outcome
  | .add r => addRule r
  | .remove r => removeRule r

def addGlobalRules (rules : List GlobalRule) (b : Builder) : Outcome := each addGlobalRule rules b

/-- Adds the global rules of a page, read for the target. -/
def addPage (t : Text) (b : Builder) : Outcome :=
  addGlobalRules (Markup.Page.globalRules t b.target) b

/-! ## Calls -/

/-- What a builder is asked to gather. -/
inductive Call where
  | setTarget (v : Variant)
  | addTable (t : Table)
  | addTables (ts : List Table)
  | addPair (source target : Text)
  | removePair (source target : Text)
  | addRule (r : Rule)
  | removeRule (r : Rule)
  | addLines (t : Text)
  | addGlobalRules (rules : List GlobalRule)
  | addPage (t : Text)
deriving Repr

def run (b : Builder) : Call → Outcome
  | .setTarget v => { builder := b.setTarget v }
  | .addTable t => { builder := b.addTable t }
  | .addTables ts => { builder := b.addTables ts }
  | .addPair source target => b.addPair source target
  | .removePair source target => b.removePair source target
  | .addRule r => b.addRule r
  | .removeRule r => b.removeRule r
  | .addLines t => b.addLines t
  | .addGlobalRules rules => b.addGlobalRules rules
  | .addPage t => b.addPage t

/-- The builder after calls, one after the other, those that ended in an error included. -/
def runAll (b : Builder) (calls : List Call) : Builder :=
  calls.foldl (fun b call => (b.run call).builder) b

/-! ## The converter -/

/-- The pairs of the tables, then those added, without the words removed. -/
def pairs (b : Builder) : Except LengthMismatch (List (Text × Text)) := do
  let tables ← b.tables.mapM Table.expand
  return (tables.flatten ++ b.adds.toList).filter fun (source, _) => (b.removes.get? source).isNone

/-- The operation that is timed. -/
def operation : Text := "ZhConverterBuilder.build".toList

/-- What a converter was built from. -/
def summary (b : Builder) (c : Converter) : Text :=
  "Building converter for ".toList ++ b.target.code ++
    ": tables=".toList ++ Journal.decimal b.tables.length ++
    ", adds=".toList ++ Journal.decimal b.adds.size ++
    ", removes=".toList ++ Journal.decimal b.removes.size ++
    ", entries=".toList ++ Journal.decimal c.size

/-- The converter of what was gathered; columns that do not match are an error. -/
def converter (b : Builder) : Except LengthMismatch Converter :=
  b.pairs.map (Converter.ofPairs b.target)

/-- What building gives and what it tells. -/
structure Built where
  result : Except LengthMismatch Converter
  journal : List Journal.Entry

/-- Builds the converter, with a summary if that succeeds; the time is told in any case. -/
def build (b : Builder) : Built :=
  let result := b.converter
  { result
    journal := (result.toOption.map fun c => note (b.summary c)).toList ++
      [⟨channel, Journal.debug, .timing operation⟩] }

end Builder

namespace Converter

/-- The converter of pairs that must have sources. -/
def ofPairs? (variant : Variant) (pairs : List (Text × Text)) :
    Except Builder.PairError Converter :=
  let start := ({} : Builder).setTarget variant
  let o := Builder.each (fun (source, target) => Builder.addPair source target) pairs start
  match o.error? with
  | some e => .error e
  | none => .ok (ofPairs variant o.builder.adds.toList)

end Converter

end HanVariants
