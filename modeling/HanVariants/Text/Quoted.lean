import HanVariants.Text.Printable
import HanVariants.Text.Basic
/-!
# Quoted texts

A text is shown in a message between quotes, so that its ends are seen and every character can be
told from every other. The quote is `'`, or `"` when the text holds a `'` and no `"`. Inside, the
quote and the backslash stand behind a backslash, a line feed, carriage return and tab have short
forms, and any other character that is not printable is written by its code point.
-/

namespace HanVariants.Text

/-- A number in hexadecimal, in lower case and with zeros in front up to the width. -/
def hex (width n : Nat) : Text := (Nat.toDigits 16 n).leftpad width '0'

/-- The quote that goes around a text. -/
def quoteFor (t : Text) : Char :=
  if t.contains '\'' && !t.contains '"' then '"' else '\''

/-- How one character is written between quotes. -/
def escape (quote c : Char) : List Char :=
  if c = quote || c = '\\' then ['\\', c]
  else if c = '\n' then ['\\', 'n']
  else if c = '\r' then ['\\', 'r']
  else if c = '\t' then ['\\', 't']
  else if isPrintable c then [c]
  else if c.toNat < 0x100 then '\\' :: 'x' :: hex 2 c.toNat
  else if c.toNat < 0x10000 then '\\' :: 'u' :: hex 4 c.toNat
  else '\\' :: 'U' :: hex 8 c.toNat

/-- A text between quotes. -/
def quoted (t : Text) : Text :=
  let quote := quoteFor t
  quote :: t.flatMap (escape quote) ++ [quote]

/-! ## How quotes are chosen and characters written -/

example : quoted "台".toList = "'台'".toList := by decide +kernel

example : quoted ['a', '\'', '\\'] = ['"', 'a', '\'', '\\', '\\', '"'] := by decide +kernel

example : quoted ['\'', '"'] = ['\'', '\\', '\'', '"', '\''] := by decide +kernel

example : quoted ['\t', '\u00a0', '\u3000'] = "'\\t\\xa0\\u3000'".toList := by decide +kernel

end HanVariants.Text
