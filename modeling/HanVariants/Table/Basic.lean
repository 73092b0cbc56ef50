import HanVariants.Journal.Basic
import HanVariants.Text.Blank
/-!
# Word tables

A table pairs words with what they become. It is a list of pairs, or a column of words beside a
column of targets; a column can be written in one text, its cells between `|`. Columns of different
lengths pair nothing.
-/

namespace HanVariants

/-- A column of a table. -/
inductive Column where
  /-- Cells written in one text with `|` between them; blanks around the text do not count. -/
  | joined (t : Text)
  | cells (ts : List Text)
deriving DecidableEq, Repr

def Column.toList : Column → List Text
  | joined t => (Text.strip t).splitOn '|'
  | cells ts => ts

inductive Table where
  | pairs (entries : List (Text × Text))
  | columns (sources targets : Column)
deriving DecidableEq, Repr

/-- The lengths of columns that do not match. -/
structure LengthMismatch where
  sources : Nat
  targets : Nat
deriving DecidableEq, Repr

def LengthMismatch.message (e : LengthMismatch) : Text :=
  "詞表來源與目標數量不一致: ".toList ++ Journal.decimal e.sources ++ " != ".toList ++
    Journal.decimal e.targets

namespace Table

/-- The pairs of a table, in order. -/
def expand : Table → Except LengthMismatch (List (Text × Text))
  | pairs entries => .ok entries
  | columns sources targets =>
    let sources := sources.toList
    let targets := targets.toList
    if sources.length = targets.length then .ok (sources.zip targets)
    else .error ⟨sources.length, targets.length⟩

end Table

end HanVariants
