import HanVariants.Builtin
/-!
# Which variant a text is written in

The more characters of a text a converter replaces, the less the text is written in its variant. The
scores are compared as they are; a share of a total is kept as the two numbers it is made of, so
that it can be compared exactly, and is turned into a floating-point number only at the end.
-/

namespace HanVariants.Inference

/-- The number of characters that the built-in converter to a variant replaces in a text. -/
def score (b : Builtin) (t : Text) (v : Variant) : Nat := (b.converter v).countMatched t

/-! ## Script -/

/-- How likely a text is simplified, as one score out of a total; nothing is known of a text with
a total of 0. -/
structure Likelihood where
  matched : Nat
  total : Nat
deriving DecidableEq, Repr

namespace Likelihood

def value (l : Likelihood) : Rat := if l.total = 0 then 1 / 2 else l.matched / l.total

def toFloat (l : Likelihood) : Float :=
  if l.total = 0 then 0.5 else Float.ofNat l.matched / Float.ofNat l.total

end Likelihood

def simplifiedLikelihood (b : Builtin) (t : Text) : Likelihood :=
  ⟨score b t .hant, score b t .hant + score b t .hans⟩

/-- A text counts as simplified if it is more likely than not. -/
def isSimplified (b : Builtin) (t : Text) : Bool := 1 / 2 < (simplifiedLikelihood b t).value

/-! ## Region -/

/-- The first of the mainland, Taiwan and Hong Kong whose converter replaces least. -/
def region (b : Builtin) (t : Text) : Variant :=
  let cn := score b t .cn
  let tw := score b t .tw
  let hk := score b t .hk
  if cn ≤ tw && cn ≤ hk then .cn else if tw ≤ hk then .tw else .hk

/-- How much speaks for a variant: what its converter leaves out of a total. Nothing speaks for any
variant where there is no total. -/
structure Confidence where
  variant : Variant
  score : Nat
  total : Int
deriving DecidableEq, Repr

namespace Confidence

def value (c : Confidence) : Rat :=
  if c.total ≤ 0 then 0 else 1 - (min (c.score : Int) c.total : Int) / c.total

def toFloat (c : Confidence) : Float :=
  if c.total ≤ 0 then 0.0
  else 1.0 - Float.ofInt (min (c.score : Int) c.total) / Float.ofInt c.total

end Confidence

/-- The variants that are compared. -/
def candidates : List Variant := [.cn, .tw, .hk, .hans, .hant]

/-- The total that scores are compared with: characters of the traditional script count in both of
its regions, and are taken off once. -/
def total (b : Builtin) (t : Text) : Int :=
  score b t .cn + score b t .tw + score b t .hk - score b t .hant

/-- The candidates with their confidence, the highest first. -/
def confidences (b : Builtin) (t : Text) : List Confidence :=
  let total := total b t
  (candidates.map fun v => ⟨v, score b t v, total⟩).mergeSort fun a b => b.value ≤ a.value

end HanVariants.Inference
