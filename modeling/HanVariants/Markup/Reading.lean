import HanVariants.Markup.Mark
/-!
# Reading a text with blocks

A text is read into pieces, in order: what stands outside every block, to be converted, and what is
put into the result as it is. A block is shown when it closes; an outer block holds what is shown in
place of the blocks inside it. At the end of the text, blocks that are still open are put out as
they were written, with what was shown inside them. Each block that closes is an event, and so is an
end that leaves blocks open.
-/

namespace HanVariants.Markup

open Text

inductive Piece where
  /-- Text outside every block. -/
  | outside (t : Text)
  /-- Text that is not converted. -/
  | verbatim (t : Text)
deriving DecidableEq, Repr

/-- What happens while a text is read. Positions are those of the text; `depth` counts the open
blocks, this one included. -/
inductive Event where
  | block (start stop depth : Nat) (inner shown : Text)
  | unterminated (start stop depth : Nat)
deriving DecidableEq, Repr

structure Reading where
  pieces : List Piece := []
  events : List Event := []
deriving DecidableEq, Repr

/-- An open block: where its mark stands, and its text so far. -/
structure Frame where
  start : Nat
  text : Text := []
deriving DecidableEq, Repr

namespace Frame

def addText (f : Frame) (t : Text) : Frame := { f with text := f.text ++ t }

/-- An open block as it was written. -/
def written (f : Frame) : Text := Mark.opening.text ++ f.text

end Frame

namespace Reading

def addPieces (ps : List Piece) (r : Reading) : Reading := { r with pieces := ps ++ r.pieces }

def addEvent (e : Event) (r : Reading) : Reading := { r with events := e :: r.events }

/-- The end of the text at the position `stop`, with blocks open; the innermost comes first, and
`last` is the rest of the text inside it. -/
def unterminated (stop : Nat) (frame : Frame) (outer : List Frame) (last : Text) : Reading :=
  let frames := (frame.addText last :: outer).reverse
  { pieces := frames.map fun f => .verbatim f.written
    events := [.unterminated ((frame :: outer).getLast (by simp)).start stop frames.length] }

/-- Reads on from a position of the text with the open blocks, the innermost first. -/
def read (render : Text → Text) (protect : Bool) (position : Nat) (frames : List Frame)
    (t : Text) : Reading :=
  match frames with
  | [] =>
    match _h : cutOutside? protect t with
    | none => { pieces := [.outside t] }
    | some (before, .opening, after) =>
      let start := position + before.length
      (read render protect (start + 2) [{ start }] after).addPieces [.outside before]
    | some (before, .region region, after) =>
      (read render protect (position + before.length + region.length) [] after).addPieces
        [.outside before, .verbatim region]
  | frame :: outer =>
    match _h : cutInside? t with
    | none => unterminated (position + t.length) frame outer t
    | some (before, .opening, after) =>
      let start := position + before.length
      if frames.length < maxDepth then
        read render protect (start + 2) ({ start } :: frame.addText before :: outer) after
      else
        read render protect (start + 2) (frame.addText (before ++ Mark.opening.text) :: outer) after
    | some (before, .closing, after) =>
      let stop := position + before.length + 2
      let inner := frame.text ++ before
      let shown := render inner
      addEvent (.block frame.start stop frames.length inner shown)
        (match outer with
        | [] => (read render protect stop [] after).addPieces [.verbatim shown]
        | f :: outer => read render protect stop (f.addText shown :: outer) after)
termination_by t.length
decreasing_by
  all_goals first
    | exact length_cutOutside? _h
    | exact length_cutInside? _h

/-- Reads a whole text. -/
def ofText (render : Text → Text) (protect : Bool) (t : Text) : Reading :=
  read render protect 0 [] t

/-- The result of a reading, with the text outside every block converted. -/
def text (convert : Text → Text) (r : Reading) : Text :=
  r.pieces.flatMap fun
    | .outside t => convert t
    | .verbatim t => t

/-- The texts of the blocks that were closed, in that order. -/
def blockTexts (r : Reading) : List Text :=
  r.events.filterMap fun
    | .block _ _ _ inner _ => some inner
    | .unterminated .. => none

end Reading

end HanVariants.Markup
