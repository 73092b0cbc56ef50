import HanVariants.Text.Basic
/-!
# Lines

A line ends at a line feed, a carriage return, both together, a vertical tab, a form feed, one of
the separators of files, groups and records, the next-line character, or the line and paragraph
separators. The end of a line belongs to no line, and a text that ends with one has no empty line
after it.
-/

namespace HanVariants.Text

def isLineEnd (c : Char) : Bool :=
  [0x0a, 0x0b, 0x0c, 0x0d, 0x1c, 0x1d, 0x1e, 0x85, 0x2028, 0x2029].contains c.toNat

/-- The lines of a text, without their ends. -/
def lines : Text → List Text
  | [] => []
  | '\r' :: '\n' :: t => [] :: lines t
  | c :: t =>
    if isLineEnd c then [] :: lines t
    else match lines t with
      | [] => [[c]]
      | line :: rest => (c :: line) :: rest

example : lines "a\r\nb\n\nc\n".toList = ["a", "b", "", "c"].map String.toList := by decide +kernel

end HanVariants.Text
