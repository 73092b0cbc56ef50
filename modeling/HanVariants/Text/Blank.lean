import HanVariants.Text.Basic
/-!
# Blank characters

A character is blank when it only separates: the control characters that move the position, the
separators of files and records, and the spaces of every width, the ideographic one included. A
zero-width space joins nothing and separates nothing, so it is not blank.
-/

namespace HanVariants.Text

/-- The blank characters, as ranges of code points. -/
def blankRanges : List (Nat × Nat) :=
  [(0x09, 0x0d), (0x1c, 0x20), (0x85, 0x85), (0xa0, 0xa0), (0x1680, 0x1680), (0x2000, 0x200a),
    (0x2028, 0x2029), (0x202f, 0x202f), (0x205f, 0x205f), (0x3000, 0x3000)]

def isBlank (c : Char) : Bool :=
  blankRanges.any fun (first, last) => first ≤ c.toNat && c.toNat ≤ last

def dropBlanks (t : Text) : Text := t.dropWhile isBlank

def dropEndBlanks (t : Text) : Text := (t.reverse.dropWhile isBlank).reverse

/-- A text without the blanks around it. -/
def strip (t : Text) : Text := dropEndBlanks (dropBlanks t)

/-! ## What stripping leaves -/

theorem dropBlanks_head {t : Text} {c : Char} {r : Text} (h : dropBlanks t = c :: r) :
    isBlank c = false := by
  induction t with
  | nil => simp [dropBlanks] at h
  | cons d t ih =>
    simp only [dropBlanks, List.dropWhile_cons] at h ih
    split at h
    · exact ih h
    · simp_all

theorem length_dropBlanks_le (t : Text) : (dropBlanks t).length ≤ t.length :=
  (List.dropWhile_suffix isBlank).length_le

end HanVariants.Text
