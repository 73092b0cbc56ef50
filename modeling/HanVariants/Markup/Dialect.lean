import HanVariants.Markup.Page
/-!
# Dialects

A dialect says what the text of a block means: what is shown in its place, and which edits a page
makes to the words that are converted. Where blocks begin and end is the same in every dialect.
-/

namespace HanVariants.Markup

structure Dialect where
  /-- What is shown in place of a block for a variant. -/
  render : Text → Variant → Text
  /-- The edits that a whole page makes for a variant. -/
  edits : Text → Variant → List Edit

namespace Dialect

/-- Blocks with flags and conversion rules. -/
def standard : Dialect where
  render t v := (Block.parse t).render v
  edits t v := Page.edits (Page.globalRules t v) v

end Dialect

end HanVariants.Markup
