import HanVariants.Table.Regional
import HanVariants.Table.Script
import HanVariants.Variant
/-!
# Built-in tables

The table of a script turns single characters into their other form, and the table of a region
replaces whole words. A regional variant uses the table of its script and then its own. The script
tables are made with a conversion that may not be installed; nothing else needs it.
-/

namespace HanVariants

/-- The name of a table that there is not. -/
structure UnknownTable where
  name : Text
deriving DecidableEq, Repr

def UnknownTable.message (e : UnknownTable) : Text :=
  "module 'zhvariant.tables' has no attribute ".toList ++ Text.quoted e.name

namespace Table

def ofWords (words : List (String × String)) : List (Text × Text) :=
  words.map fun (s, t) => (s.toList, t.toList)

end Table

namespace Variant

/-- The script that a variant is written in; the text as it stands has none. -/
def script? : Variant → Option Script
  | zh => none
  | hans | cn | sg | my => some .simplified
  | hant | tw | hk | mo => some .traditional

/-- The words of a region. -/
def regionalWords? : Variant → Option (List (String × String))
  | zh | hans | hant => none
  | tw => some Table.taiwanWords
  | hk | mo => some Table.hongKongWords
  | cn | sg | my => some Table.mainlandWords

/-- The pairs of the tables of a variant: those of its script, then those of its region. -/
def tables (conv : ScriptConversion) (v : Variant) : List (List (Text × Text)) :=
  (v.script?.map (Table.ofScript conv)).toList ++ (v.regionalWords?.map Table.ofWords).toList

/-- The tables of a variant, where the conversion may not be installed. -/
def tables? (conv? : Option ScriptConversion) (v : Variant) :
    Except MissingConversion (List (List (Text × Text))) :=
  match v.script?, conv? with
  | none, _ => .ok []
  | some _, none => .error {}
  | some _, some conv => .ok (v.tables conv)

/-- The name of the table that is a variant's own. -/
def tableName (v : Variant) : Text := v.symbol ++ "_TABLE".toList

/-- The pairs of the table that is a variant's own: the regional one of a region, else that of its
script. -/
def ownTable? (conv? : Option ScriptConversion) (v : Variant) :
    Except MissingConversion (List (Text × Text)) :=
  match v.regionalWords? with
  | some words => .ok (Table.ofWords words)
  | none => (v.tables? conv?).map List.flatten

end Variant

namespace Table

/-- The variants that have a table of their own. -/
def owners : List Variant := Variant.all.filter (·.script?.isSome)

/-- The variant whose own table has this name. -/
def owner (name : Text) : Except UnknownTable Variant :=
  match owners.find? (·.tableName == name) with
  | some v => .ok v
  | none => .error ⟨name⟩

end Table

end HanVariants
