import HanVariants.Text.Blank
import HanVariants.Text.Quoted
/-!
# Variants

The nine variants of written Chinese: the text as it stands (`zh`), the two scripts, and the six
regions. A variant is named by a code such as `zh-tw`; a reader may write a code in any case, with
`_` for `-`, and with blanks around it (`Variant.ofCode?`). Where a rule has nothing for a variant,
its fallbacks are tried in order, the text as it stands last of all.
-/

namespace HanVariants

inductive Variant where
  | zh | hans | hant | cn | tw | hk | mo | sg | my
deriving DecidableEq, Repr, Inhabited

namespace Variant

/-- Every variant, the scripts before the regions. -/
def all : List Variant := [zh, hans, hant, cn, tw, hk, mo, sg, my]

def code : Variant → Text
  | zh => "zh".toList
  | hans => "zh-hans".toList
  | hant => "zh-hant".toList
  | cn => "zh-cn".toList
  | tw => "zh-tw".toList
  | hk => "zh-hk".toList
  | mo => "zh-mo".toList
  | sg => "zh-sg".toList
  | my => "zh-my".toList

/-- The name of a variant for its readers. -/
def displayName : Variant → Text
  | zh => "原文".toList
  | hans => "简体".toList
  | hant => "繁體".toList
  | cn => "大陆简体".toList
  | tw => "臺灣正體".toList
  | hk => "香港繁體".toList
  | mo => "澳門繁體".toList
  | sg => "新加坡简体".toList
  | my => "大马简体".toList

/-- The code in capitals with `_` between its parts, as a name for programs. -/
def symbol (v : Variant) : Text := v.code.map fun c => if c = '-' then '_' else c.toUpper

/-- The variants to try, in order, where there is nothing for this one. -/
def fallbacks : Variant → List Variant
  | zh => [hans, hant, cn, tw, hk, sg, mo, my]
  | hans => [cn, sg, my, zh]
  | hant => [tw, hk, mo, zh]
  | cn => [hans, sg, my, zh]
  | sg => [my, hans, cn, zh]
  | my => [sg, hans, cn, zh]
  | tw => [hant, hk, mo, zh]
  | hk => [mo, hant, tw, zh]
  | mo => [hk, hant, tw, zh]

/-! ## Reading a code -/

/-- The kelvin sign, whose small letter is a plain `k`. -/
def kelvinSign : Char := '\u212a'

/-- The character that stands for `c` in a code: capitals are small letters, `_` is `-`. -/
def codeChar (c : Char) : Char :=
  if c = '_' then '-' else if c = kelvinSign then 'k' else c.toLower

def ofCode? (t : Text) : Option Variant :=
  all.find? fun v => v.code == (Text.strip t).map codeChar

/-- The code that names no variant, as it is shown. -/
structure UnknownCode where
  shown : Text
deriving DecidableEq, Repr

def UnknownCode.message (e : UnknownCode) : Text := e.shown ++ " is not a valid Variant".toList

def parse (t : Text) : Except UnknownCode Variant :=
  match ofCode? t with
  | some v => .ok v
  | none => .error ⟨Text.quoted t⟩

/-! ## Which variant a text names -/

theorem mem_all (v : Variant) : v ∈ all := by cases v <;> decide

theorem ofCode?_eq_some_iff {t : Text} {v : Variant} :
    ofCode? t = some v ↔ (Text.strip t).map codeChar = v.code := by
  constructor
  · intro h
    have hv := List.find?_some (p := fun w : Variant => w.code == (Text.strip t).map codeChar) h
    exact (eq_of_beq hv).symm
  · intro h
    unfold ofCode?
    rw [h]
    cases v <;> decide

end Variant

end HanVariants
