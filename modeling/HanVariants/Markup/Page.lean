import HanVariants.Markup.Block
import HanVariants.Markup.Mark
/-!
# The global rules of a page

A page is scanned for blocks from left to right. A block is read when it closes, with the blocks
inside it already shown for a variant, and gives its global rule then. A block that is never closed
is not read, but the closed blocks inside it are.
-/

namespace HanVariants.Markup.Page

open Text

/-- Adds to the text of the innermost open block, if there is one. -/
def addText (t : Text) : List Text → List Text
  | [] => []
  | frame :: outer => (frame ++ t) :: outer

/-- Scans on with the texts of the open blocks, the innermost first. -/
def scan (v : Variant) (frames : List Text) (t : Text) : List GlobalRule :=
  match frames with
  | [] =>
    match _h : cutOutside? false t with
    | none => []
    | some (_, _, after) => scan v [[]] after
  | frame :: outer =>
    match _h : cutInside? t with
    | none => []
    | some (before, .opening, after) =>
      if frames.length < maxDepth then scan v ([] :: (frame ++ before) :: outer) after
      else scan v ((frame ++ before ++ Mark.opening.text) :: outer) after
    | some (before, .closing, after) =>
      let block := Block.parse (frame ++ before)
      block.globalRule?.toList ++ scan v (addText (block.render v) outer) after
termination_by t.length
decreasing_by
  · exact length_cutOutside? _h
  all_goals exact length_cutInside? _h

/-- The global rules of a page, in the order in which their blocks close. -/
def globalRules (t : Text) (v : Variant) : List GlobalRule := scan v [] t

/-- The edits of global rules for a variant. -/
def edits (rules : List GlobalRule) (v : Variant) : List Edit := rules.flatMap (·.edits v)

end HanVariants.Markup.Page
