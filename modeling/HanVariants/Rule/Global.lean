import HanVariants.Rule.Basic
/-!
# Rules for a whole page

A block of a page can put its rule to work on the whole page, or stop the words of the rule from
being converted there. For one variant such a global rule comes down to edits of the words that are
converted, one for each pair of the rule that has a source.
-/

namespace HanVariants

/-- One change to the words that are converted. -/
inductive Edit where
  | add (source target : Text)
  | remove (source : Text)
deriving DecidableEq, Repr

inductive GlobalRule where
  | add (rule : Rule)
  | remove (rule : Rule)
deriving DecidableEq, Repr

namespace GlobalRule

def rule : GlobalRule → Rule
  | add r => r
  | remove r => r

def adds : GlobalRule → Bool
  | add _ => true
  | remove _ => false

/-- The edits of a global rule for a variant. -/
def edits (v : Variant) : GlobalRule → List Edit
  | add r => ((r.pairs v).toList.filter (·.1 ≠ [])).map fun (source, target) => .add source target
  | remove r => ((r.pairs v).toList.filter (·.1 ≠ [])).map fun (source, _) => .remove source

end GlobalRule

end HanVariants
