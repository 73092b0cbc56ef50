import HanVariants.Markup.Conversion
import HanVariants.Table.Builtin
/-!
# Built-in converters

The converter of each variant from its built-in tables. Variants with the same tables share an
automaton, and each automaton is made once and kept.
-/

namespace HanVariants

/-- The automaton of the tables of a variant. -/
def Builtin.automatonOf (conv : ScriptConversion) (v : Variant) : Automaton Text :=
  .ofPairs (v.tables conv).flatten

/-- The automata of the built-in converters over a script conversion, which determines them. -/
structure Builtin where
  conversion : ScriptConversion
  simplified : { a : Automaton Text // a = Builtin.automatonOf conversion .hans }
  traditional : { a : Automaton Text // a = Builtin.automatonOf conversion .hant }
  mainland : { a : Automaton Text // a = Builtin.automatonOf conversion .cn }
  taiwan : { a : Automaton Text // a = Builtin.automatonOf conversion .tw }
  hongKong : { a : Automaton Text // a = Builtin.automatonOf conversion .hk }

namespace Builtin

def ofConversion (conv : ScriptConversion) : Builtin where
  conversion := conv
  simplified := ⟨automatonOf conv .hans, rfl⟩
  traditional := ⟨automatonOf conv .hant, rfl⟩
  mainland := ⟨automatonOf conv .cn, rfl⟩
  taiwan := ⟨automatonOf conv .tw, rfl⟩
  hongKong := ⟨automatonOf conv .hk, rfl⟩

def automaton (b : Builtin) : (v : Variant) → { a : Automaton Text // a = automatonOf b.conversion v }
  | .zh => ⟨automatonOf b.conversion .zh, rfl⟩
  | .hans => b.simplified
  | .hant => b.traditional
  | .cn | .sg | .my => b.mainland
  | .tw => b.taiwan
  | .hk | .mo => b.hongKong

/-- The built-in converter to a variant. -/
def converter (b : Builtin) (v : Variant) : Converter := ⟨(b.automaton v).val, v⟩

/-- A built-in converter replaces the words of its variant's tables. -/
theorem converter_eq (b : Builtin) (v : Variant) :
    b.converter v = .ofPairs v (v.tables b.conversion).flatten := by
  unfold converter
  rw [(b.automaton v).property]
  rfl

/-- Converts a text to a variant. -/
def convert (b : Builtin) (t : Text) (v : Variant) : Text := (b.converter v).convert t

/-- Converts a text with blocks to a variant. -/
def convertMarkup (b : Builtin) (t : Text) (v : Variant) : Text :=
  ((b.converter v).convertMarkup .extended t).text

end Builtin

end HanVariants
