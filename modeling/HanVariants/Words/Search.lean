import HanVariants.Words.Automaton
/-!
# Searching a text for words

`search` finds the leftmost place of a text at which a word stands, and there the longest word.
`segments` cuts a whole text along the words found one after the other: what stands between them
is copied, and no two of them overlap. The segments written one after the other give the text again
(`flatMap_written_segments`).
-/

namespace HanVariants

/-- A word found in a text, from the position `start` up to the position `stop`. -/
structure Hit (α : Type) where
  start : Nat
  stop : Nat
  value : α
  start_lt_stop : start < stop

namespace Hit

variable {α : Type}

/-- The word that ends before the position `i + 1`. -/
def endingAt (i : Nat) (e : Entry α) : Hit α where
  start := i + 1 - e.word.length
  stop := i + 1
  value := e.value
  start_lt_stop := by have := List.length_pos_iff.2 e.word_ne_nil; omega

/-- Whether one hit is preferred to another: it starts earlier, or is longer from the same start. -/
def beats (h h' : Hit α) : Bool :=
  h.start < h'.start || (h.start == h'.start && h'.stop < h.stop)

/-- The hit as it is seen `k` characters later, for a hit that starts no earlier. -/
def after (h : Hit α) (k : Nat) (hk : k ≤ h.start) : Hit α where
  start := h.start - k
  stop := h.stop - k
  value := h.value
  start_lt_stop := by have := h.start_lt_stop; omega

end Hit

namespace Automaton

variable {α : Type}

/-- The better of the best hit so far and the word that ends before the position `i + 1`. -/
def better (best : Option (Hit α)) (i : Nat) : Option (Entry α) → Option (Hit α)
  | none => best
  | some e =>
    match best with
    | none => some (.endingAt i e)
    | some b => if (Hit.endingAt i e).beats b then some (.endingAt i e) else some b

/-- Reads on from the position `i` at the node `n`, until no word that is still being read starts
at or before the best hit. -/
def searchFrom (a : Automaton α) (i n : Nat) (best : Option (Hit α)) : Text → Option (Hit α)
  | [] => best
  | c :: t =>
    let n := a.step n c
    match best with
    | some b =>
      if b.start + a.trie.depth n < i + 1 then some b
      else a.searchFrom (i + 1) n (better (some b) i (a.output? n)) t
    | none => a.searchFrom (i + 1) n (better none i (a.output? n)) t

/-- The leftmost place where a word stands, and there the longest word. -/
def search (a : Automaton α) (t : Text) : Option (Hit α) := a.searchFrom 0 Trie.root none t

end Automaton

/-! ## Cutting a whole text -/

/-- A stretch of a text: characters that belong to no word found, or a word with its value. -/
inductive Segment (α : Type) where
  | copied (t : Text)
  | matched (word : Text) (value : α)

namespace Segment

variable {α : Type}

/-- The stretch as it stands in the text. -/
def written : Segment α → Text
  | copied t => t
  | matched word _ => word

end Segment

namespace Automaton

variable {α : Type}

/-- A text cut along the words found in it from left to right. -/
def segments (a : Automaton α) : Text → List (Segment α)
  | [] => []
  | c :: t =>
    match a.search (c :: t) with
    | none => [.copied (c :: t)]
    | some h =>
      .copied ((c :: t).take h.start) ::
        .matched (((c :: t).take h.stop).drop h.start) h.value :: a.segments ((c :: t).drop h.stop)
termination_by t => t.length
decreasing_by have := h.start_lt_stop; simp; omega

/-- The segments of a text hold the text, each character once and in order. -/
theorem flatMap_written_segments (a : Automaton α) (t : Text) :
    (a.segments t).flatMap Segment.written = t := by
  fun_induction segments a t with
  | case1 => rfl
  | case2 => simp [Segment.written]
  | case3 c t h hs ih =>
    rw [List.flatMap_cons, List.flatMap_cons, ih]
    have hlt := h.start_lt_stop
    have : ((c :: t).take h.stop).take h.start = (c :: t).take h.start := by
      rw [List.take_take, Nat.min_eq_left (Nat.le_of_lt hlt)]
    simp only [Segment.written]
    rw [← this, ← List.append_assoc, List.take_append_drop, List.take_append_drop]

end Automaton

end HanVariants
