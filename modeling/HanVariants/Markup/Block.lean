import HanVariants.Rule.Parser
import HanVariants.Rule.Global
/-!
# Marked blocks

Inside its marks a block holds a text, and before the first `|` there may be flags, letters
separated by `;`. Flags say what is shown in place of the block and whether its rule holds for the
whole page. What is not a list of known flags belongs to the text, and a text that is no rule is
shown as it stands, so that every block can be read.
-/

namespace HanVariants

/-- The flags of a block, in the order of their letters. -/
inductive Flag where
  /-- Remove the rule's words from the page. -/
  | remove
  /-- Add the rule to the page and show the block. -/
  | add
  /-- Describe the rule. -/
  | describe
  /-- Add the rule to the page and show nothing. -/
  | hide
  /-- Show the name of a variant. -/
  | name
  /-- Show the text as it stands. -/
  | raw
  /-- Show the block; the same as no flag. -/
  | plain
  /-- A rule for the title; show nothing. -/
  | title
deriving DecidableEq, Repr

namespace Flag

def all : List Flag := [remove, add, describe, hide, name, raw, plain, title]

def letter : Flag → Char
  | remove => '-'
  | add => 'A'
  | describe => 'D'
  | hide => 'H'
  | name => 'N'
  | raw => 'R'
  | plain => 'S'
  | title => 'T'

/-- The flags that leave no other beside them, the strongest first. -/
def exclusive : List Flag := [raw, name, remove, title]

/-- The flags under which a block shows nothing. -/
def hidden : List Flag := [remove, hide, title]

def ofText? (t : Text) : Option Flag := all.find? fun flag => [flag.letter] == t

/-- Reads flags separated by `;`, if there are some and all are known. Each is listed once. -/
def readAll? (t : Text) : Option (List Flag) :=
  let parts := ((t.splitOn ';').map Text.strip).filter (· ≠ [])
  match parts.mapM ofText? with
  | none | some [] => none
  | some flags =>
    match exclusive.find? (flags.contains ·) with
    | some flag => some [flag]
    | none => some (all.filter (flags.contains ·))

end Flag

structure Block where
  text : Text
  flags : List Flag := []
  rule? : Option Rule := none
deriving DecidableEq, Repr

namespace Block

/-- The flags and the text of a block. -/
def splitFlags (t : Text) : List Flag × Text :=
  match Text.cut? ['|'] t with
  | none => ([], t)
  | some (head, body) =>
    match Flag.readAll? head with
    | none => ([], t)
    | some flags => (flags, body)

def parse (t : Text) : Block :=
  let (flags, text) := splitFlags t
  { text, flags, rule? := (Rule.parse text).toOption }

/-- The rule that a block gives to its whole page. -/
def globalRule? (b : Block) : Option GlobalRule :=
  b.rule?.bind fun rule =>
    if b.flags.contains .remove then some (.remove rule)
    else if b.flags.contains .hide || b.flags.contains .add then some (.add rule)
    else none

/-- What is shown in place of a block. -/
def render (b : Block) (v : Variant) : Text :=
  if b.flags.contains .raw then b.text
  else if b.flags.contains .name then ((Variant.ofCode? b.text).map (·.displayName)).getD b.text
  else if b.flags.any (Flag.hidden.contains ·) then []
  else match b.rule? with
    | none => b.text
    | some rule => if b.flags.contains .describe then rule.description else rule.shown v

end Block

end HanVariants
