import HanVariants.Overlay
/-!
# Converters

A converter replaces the words of its dictionary in a text, from left to right and the longest word
first; everything else stays. With an overlay, the words it adds are looked for as well and win
where both find a word of the same length, and a suppressed word of the dictionary is passed over.
-/

namespace HanVariants

structure Converter where
  automaton : Automaton Text
  variant : Variant

namespace Converter

/-- The converter of word pairs; the last pair of a source wins, and a pair without one is left
out. -/
def ofPairs (variant : Variant) (pairs : List (Text × Text)) : Converter :=
  ⟨.ofPairs pairs, variant⟩

/-- The number of words that are replaced. -/
def size (c : Converter) : Nat := c.automaton.size

def convert (c : Converter) (t : Text) : Text :=
  (c.automaton.segments t).flatMap fun
    | .copied t => t
    | .matched _ target => target

/-- The number of characters of a text that belong to the words replaced. -/
def countMatched (c : Converter) (t : Text) : Nat :=
  ((c.automaton.segments t).flatMap fun
    | .copied _ => []
    | .matched word _ => word).length

/-! ## With an overlay -/

/-- What to do next with a text. -/
inductive Move where
  /-- Copy up to the hit and replace it. -/
  | replace (h : Hit Text)
  /-- Copy one character. -/
  | pass
  /-- Copy the whole text. -/
  | finish

/-- Whether the overlay's hit is taken before the dictionary's: it starts earlier, or it starts at
the same place and is no longer. -/
def overlayFirst (overlay base : Hit Text) : Bool :=
  overlay.start < base.start || (overlay.start == base.start && overlay.stop ≤ base.stop)

/-- Takes the dictionary's hit in the text `t`, unless it is suppressed. -/
def takeBase (o : Overlay) (t : Text) (base : Hit Text) : Move :=
  if o.suppresses ((t.take base.stop).drop base.start) base.value then .pass else .replace base

/-- What to do next with the text `t`, by the next hits of the dictionary and of the overlay. -/
def nextMove (o : Overlay) (t : Text) : Option (Hit Text) → Option (Hit Text) → Move
  | none, none => .finish
  | none, some overlay => .replace overlay
  | some base, none => takeBase o t base
  | some base, some overlay =>
    if overlayFirst overlay base then .replace overlay else takeBase o t base

/-- The next hit once `k` characters are behind and `rest` is ahead. A hit that starts ahead is
still the next one; only a hit that starts behind makes a new search necessary. -/
def lookAhead (a : Automaton Text) (hit : Option (Hit Text)) (k : Nat) (rest : Text) :
    Option (Hit Text) :=
  match hit with
  | none => none
  | some h => if hk : k ≤ h.start then some (h.after k hk) else a.search rest

/-- Converts a text of which the next hits of the dictionary and of the overlay are known. -/
def convertFrom (c : Converter) (o : Overlay) (base overlay : Option (Hit Text)) : Text → Text
  | [] => []
  | x :: t =>
    match nextMove o (x :: t) base overlay with
    | .finish => x :: t
    | .pass =>
      x :: c.convertFrom o (lookAhead c.automaton base 1 t) (lookAhead o.automaton overlay 1 t) t
    | .replace h =>
      let rest := (x :: t).drop h.stop
      (x :: t).take h.start ++ h.value ++
        c.convertFrom o (lookAhead c.automaton base h.stop rest)
          (lookAhead o.automaton overlay h.stop rest) rest
termination_by t => t.length
decreasing_by
  · simp
  · have := h.start_lt_stop; simp; omega

/-- Converts a text under an overlay. -/
def convertWith (c : Converter) (o : Overlay) (t : Text) : Text :=
  c.convertFrom o (c.automaton.search t) (o.automaton.search t) t

end Converter

end HanVariants
