import HanVariants.Text.Basic
/-!
# Script tables

The table of a script has the ideographs that are written otherwise in it. It is made by converting
all ideographs in one text, with a conversion that may not be installed. Nothing is asked of the
conversion: whatever it gives, the sources are single ideographs
(`exists_ideograph_of_mem_ofScript`).
-/

namespace HanVariants

inductive Script where
  | simplified
  | traditional
deriving DecidableEq, Repr

/-- How a text is written in each script. A package outside the library provides it. -/
structure ScriptConversion where
  toSimplified : Text → Text
  toTraditional : Text → Text

def ScriptConversion.to (conv : ScriptConversion) : Script → Text → Text
  | .simplified => conv.toSimplified
  | .traditional => conv.toTraditional

/-- The script conversion is not installed. -/
structure MissingConversion where
deriving DecidableEq, Repr

def MissingConversion.message (_ : MissingConversion) : Text :=
  ("缺少內建轉換表依賴 (hanziconv)。請執行:\n  pip install hanziconv\n" ++
    "或重新安裝本套件:\n  pip install zhvariant").toList

namespace Table

/-- The basic block of unified ideographs, in the order of the code points. -/
def ideographs : Text := (List.range' 0x4e00 (0x9fff + 1 - 0x4e00)).map Char.ofNat

/-- The pairs of the table of a script: each ideograph with the character at its place in the
converted text, where that is another one. No ideograph comes twice. -/
def ofScript (conv : ScriptConversion) (s : Script) : List (Text × Text) :=
  ((ideographs.zip (conv.to s ideographs)).filter fun (c, d) => c ≠ d).map fun (c, d) => ([c], [d])

theorem exists_ideograph_of_mem_ofScript {conv : ScriptConversion} {s : Script} {p : Text × Text}
    (h : p ∈ ofScript conv s) : ∃ c ∈ ideographs, p.1 = [c] := by
  obtain ⟨⟨c, d⟩, hq, rfl⟩ := List.mem_map.1 h
  exact ⟨c, (List.of_mem_zip (List.mem_filter.1 hq).1).1, rfl⟩

end Table

end HanVariants
