import HanVariants.Converter
import HanVariants.Journal.Channels
import HanVariants.Markup.Dialect
import HanVariants.Markup.Reading
/-!
# Converting a text with blocks

A text with blocks is read, and what stands outside them is converted. Where the page's own global
rules are to hold, their edits make an overlay for this text; without such an edit the converter
works as it is. A listener is told what happens; one that fails is noted in the journal and changes
nothing else.
-/

namespace HanVariants.Markup

/-- What a listener is told. -/
inductive Notice where
  /-- Global rules hold for this text; so many words are added and suppressed. -/
  | globalRules (adds removes : Nat)
  | reading (e : Event)
deriving DecidableEq, Repr

structure Options where
  /-- Leave protected regions as they are. -/
  protect : Bool := false
  /-- Let the page's global rules hold. -/
  globalRules : Bool := false
  dialect : Dialect := .standard
  /-- Whether the listener takes a notice without failing. -/
  accepts : Notice → Bool := fun _ => true

namespace Options

/-- Only what blocks show; no global rules and no protected regions. -/
def basic : Options := {}

def extended : Options := { protect := true, globalRules := true }

end Options

structure Conversion where
  text : Text
  notices : List Notice
  /-- The texts of the blocks that were read, in that order. -/
  blockTexts : List Text
  journal : List Journal.Entry

namespace Conversion

def channel : Text := Journal.channelName (some "wikitext".toList)

/-- The operation that is timed. -/
def operation : Text := "RuleBlockParser.convert".toList

/-- What is noted before a listener is told. -/
def note? : Notice → Option Text
  | .globalRules adds removes =>
    some ("Global rules found: adds=".toList ++ Journal.decimal adds ++ ", removes=".toList ++
      Journal.decimal removes)
  | .reading (.unterminated start _ depth) =>
    some ("Unterminated rule block at ".toList ++ Journal.decimal start ++ " (depth=".toList ++
      Journal.decimal depth ++ ")".toList)
  | .reading (.block ..) => none

/-- The entries that a notice makes. -/
def entries (accepts : Notice → Bool) (n : Notice) : List Journal.Entry :=
  ((note? n).map fun t => ⟨channel, Journal.debug, .text t⟩).toList ++
    if accepts n then [] else [⟨channel, Journal.error, .text "on_event 回呼執行失敗".toList⟩]

end Conversion

/-- The overlay of a page, if its global rules hold and change anything. -/
def overlay? (options : Options) (v : Variant) (t : Text) : Option Overlay :=
  if options.globalRules then
    let o := Overlay.ofEdits (options.dialect.edits t v)
    if o.isEmpty then none else some o
  else none

/-- How the text outside every block is converted. -/
def plain (c : Converter) : Option Overlay → Text → Text
  | none => c.convert
  | some o => c.convertWith o

end HanVariants.Markup

namespace HanVariants.Converter

open Markup

/-- Converts a text with blocks. -/
def convertMarkup (c : Converter) (options : Options) (t : Text) : Conversion :=
  let overlay := overlay? options c.variant t
  let reading := Reading.ofText (options.dialect.render · c.variant) options.protect t
  let notices :=
    (overlay.map fun o => Notice.globalRules o.adds.size o.suppressed.length).toList ++
      reading.events.map .reading
  { text := reading.text (plain c overlay)
    notices
    blockTexts := reading.blockTexts
    journal := notices.flatMap (Conversion.entries options.accepts) ++
      [⟨Conversion.channel, Journal.debug, .timing Conversion.operation⟩] }

end HanVariants.Converter
