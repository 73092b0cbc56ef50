import HanVariants.OrderedMap
import HanVariants.Variant
/-!
# Conversion rules

A rule says how one thing is written in each variant. Its spellings hold for every direction: each
of them is turned into the spelling of the target. Its one-way items turn a source into a text for
one variant only. A rule shows a text for a variant (`Rule.shown`) and gives the word pairs by which
the rest of a text is converted to it (`Rule.pairs`).
-/

namespace HanVariants

/-- A word that becomes another text in one variant. -/
structure OneWay where
  source : Text
  variant : Variant
  target : Text
deriving DecidableEq, Repr

structure Rule where
  spellings : OrderedMap Variant Text := {}
  oneWay : List OneWay := []
deriving DecidableEq, Repr

namespace Rule

/-- The spelling for a variant: its own, or else that of its first fallback that has one. -/
def spelling? (r : Rule) (v : Variant) : Option Text :=
  (v :: v.fallbacks).findSome? r.spellings.get?

/-- The one-way items for a variant. -/
def oneWayFor (r : Rule) (v : Variant) : List OneWay := r.oneWay.filter (·.variant = v)

/-- The text shown for a variant: its spelling, else the target of its first one-way item, else the
first spelling there is, else the first source. -/
def shown (r : Rule) (v : Variant) : Text :=
  match r.spelling? v, r.oneWayFor v, r.spellings.values, r.oneWay with
  | some t, _, _, _ => t
  | none, item :: _, _, _ => item.target
  | none, [], t :: _, _ => t
  | none, [], [], item :: _ => item.source
  | none, [], [], [] => []

/-- The pairs that the spellings give: those of other variants become the spelling of this one. -/
def spellingPairs (r : Rule) (v : Variant) : List (Text × Text) :=
  match r.spelling? v with
  | none => []
  | some target => (r.spellings.toList.filter (·.1 ≠ v)).map fun (_, source) => (source, target)

def oneWayPairs (r : Rule) (v : Variant) : List (Text × Text) :=
  (r.oneWayFor v).map fun item => (item.source, item.target)

/-- The word pairs by which a text is converted to a variant. One-way items come after the
spellings, so that they win where both have the same source. -/
def pairs (r : Rule) (v : Variant) : OrderedMap Text Text :=
  .ofList (r.spellingPairs v ++ r.oneWayPairs v)

/-- Every text of the rule, with the name of its variant. -/
def description (r : Rule) : Text :=
  r.spellings.toList.flatMap (fun (v, t) => v.displayName ++ '：' :: t ++ ['；']) ++
    r.oneWay.flatMap fun item =>
      item.source ++ '⇒' :: item.variant.displayName ++ '：' :: item.target ++ ['；']

theorem nodup_keys_pairs (r : Rule) (v : Variant) : (r.pairs v).keys.Nodup :=
  OrderedMap.nodup_keys_ofList _

end Rule

end HanVariants
