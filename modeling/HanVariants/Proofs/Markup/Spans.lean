import HanVariants.Proofs.Markup.Conversion
/-!
# Where blocks stand

What a listener is told of blocks are spans of the text that nest properly (`properlyNested_notices`).
A reading keeps for each open block where it starts; of all else that it keeps, the events depend on
nothing but the position. So they are told here by a trace, in which blocks open and close at marks of
the text from left to right (`trace_read`), and what holds of every trace is shown by induction on its
steps.
-/

namespace HanVariants.Markup

/-- A stretch of a text from the mark that opens a block, and how many blocks are open in it. -/
structure Span where
  start : Nat
  stop : Nat
  depth : Nat
deriving DecidableEq, Repr

namespace Span

/-- Strictly inside another span. -/
def Inside (s s' : Span) : Prop := s'.start < s.start ∧ s.stop < s'.stop

instance (s s' : Span) : Decidable (s.Inside s') := inferInstanceAs (Decidable (_ ∧ _))

theorem not_inside_of_le {s s' : Span} (h : s'.stop ≤ s.stop) : ¬ s.Inside s' :=
  fun hi => Nat.not_lt.2 h hi.2

end Span

/-- A mark stands at a position of a text. -/
def Mark.StandsAt (m : Mark) (t : Text) (p : Nat) : Prop := (t.drop p).take 2 = m.text

namespace Event

/-- The span of a block that closes. -/
def closed? : Event → Option Span
  | block start stop depth _ _ => some ⟨start, stop, depth⟩
  | unterminated .. => none

/-- The span that is left open at the end of the text. -/
def unclosed? : Event → Option Span
  | block .. => none
  | unterminated start stop depth => some ⟨start, stop, depth⟩

end Event

namespace Notice

def closed? : Notice → Option Span
  | globalRules .. => none
  | reading e => e.closed?

def unclosed? : Notice → Option Span
  | globalRules .. => none
  | reading e => e.unclosed?

end Notice

/-! ## Events as a trace -/

/-- The events from the position `p` of a text on, where blocks that start at `starts` are open, the
innermost first. -/
inductive Trace (t : Text) : Nat → List Nat → List Event → Prop
  | finish {p : Nat} : Trace t p [] []
  /-- The text ends with blocks open, and the end tells of one of them. -/
  | unterminated {p start depth : Nat} {starts : List Nat} (hs : start ∈ starts)
      (hdepth : depth = starts.length) : Trace t p starts [.unterminated start t.length depth]
  /-- The next block opens. That is no event. -/
  | opening {p start : Nat} {starts : List Nat} {es : List Event} (hp : p ≤ start)
      (hm : Mark.opening.StandsAt t start) (hmax : starts.length < maxDepth)
      (tail : Trace t (start + 2) (start :: starts) es) : Trace t p starts es
  /-- The innermost block closes. -/
  | closing {p start stop depth : Nat} {starts : List Nat} {inner shown : Text} {es : List Event}
      (hp : p + 2 ≤ stop) (hm : Mark.closing.StandsAt t (stop - 2)) (hdepth : depth = starts.length + 1)
      (tail : Trace t stop starts es) :
      Trace t p (start :: starts) (.block start stop depth inner shown :: es)

/-- What is left of a text from a position on. -/
def IsRest (whole : Text) (p : Nat) (t : Text) : Prop :=
  ∃ before, whole = before ++ t ∧ before.length = p

namespace IsRest

variable {whole t u : Text} {p : Nat}

theorem self (t : Text) : IsRest t 0 t := ⟨[], rfl, rfl⟩

theorem after (h : IsRest whole p (u ++ t)) : IsRest whole (p + u.length) t := by
  obtain ⟨before, rfl, rfl⟩ := h
  exact ⟨before ++ u, (List.append_assoc ..).symm, List.length_append⟩

theorem add_length (h : IsRest whole p t) : p + t.length = whole.length := by
  obtain ⟨before, rfl, rfl⟩ := h
  exact List.length_append.symm

theorem standsAt {m : Mark} (h : IsRest whole p (m.text ++ t)) : m.StandsAt whole p := by
  obtain ⟨before, rfl, rfl⟩ := h
  rw [Mark.StandsAt, List.drop_left]
  exact List.take_left' m.length_text

end IsRest

/-- What can happen from a position on can happen from an earlier one on. -/
theorem Trace.of_le {t : Text} {p p' : Nat} {starts : List Nat} {es : List Event}
    (h : Trace t p' starts es) (hp : p ≤ p') : Trace t p starts es := by
  cases h with
  | finish => exact .finish
  | unterminated hs hdepth => exact .unterminated hs hdepth
  | opening hp' hm hmax tail => exact .opening (Nat.le_trans hp hp') hm hmax tail
  | closing hp' hm hdepth tail =>
    exact .closing (Nat.le_trans (Nat.add_le_add_right hp 2) hp') hm hdepth tail

/-- The events of a reading are a trace of the whole text. -/
theorem trace_read {whole : Text} (render : Text → Text) (protect : Bool) (position : Nat)
    (frames : List Frame) (t : Text) (ht : IsRest whole position t) :
    Trace whole position (frames.map Frame.start)
      (Reading.read render protect position frames t).events := by
  fun_induction Reading.read render protect position frames t with
  | case1 position t h => exact .finish
  | case2 position t before after h start ih =>
    rw [(cutOutside?_eq h).1, List.append_assoc] at ht
    exact .opening (Nat.le_add_right ..) ht.after.standsAt (by decide) (ih ht.after.after)
  | case3 position t before region after h ih =>
    rw [(cutOutside?_eq h).1, List.append_assoc] at ht
    exact (ih ht.after.after).of_le (by omega)
  | case4 position t frame outer h =>
    rw [ht.add_length]
    exact .unterminated (List.mem_map.2 ⟨_, List.getLast_mem _, rfl⟩) (by simp)
  | case5 position t frame outer before after h start hd ih =>
    rw [cutInside?_eq h, List.append_assoc] at ht
    rw [if_pos hd]
    have hmax : ((frame :: outer).map Frame.start).length < maxDepth := by rwa [List.length_map]
    exact .opening (Nat.le_add_right ..) ht.after.standsAt hmax (ih ht.after.after)
  | case6 position t frame outer before after h start hd ih =>
    -- the mark is text, so the trace goes on behind it
    rw [cutInside?_eq h, List.append_assoc] at ht
    rw [if_neg hd]
    exact (ih ht.after.after).of_le (by omega)
  | case7 position t frame outer before after h stop inner shown ih ih' =>
    rw [cutInside?_eq h, List.append_assoc] at ht
    have hm : Mark.closing.StandsAt whole (stop - 2) := ht.after.standsAt
    refine .closing (by omega) hm (by rw [List.length_map]; rfl) ?_
    cases outer with
    | nil => exact ih ht.after.after
    | cons f outer => exact ih' f outer ht.after.after

/-! ## Blocks that are open -/

/-- Blocks that start at `starts`, the innermost first, can be open at the position `p`. -/
structure Opened (t : Text) (p : Nat) (starts : List Nat) : Prop where
  standsAt : ∀ s ∈ starts, Mark.opening.StandsAt t s
  behind : ∀ s ∈ starts, s + 2 ≤ p
  inward : starts.Pairwise (· > ·)
  length_le : starts.length ≤ maxDepth

namespace Opened

variable {t : Text} {p p' start : Nat} {starts : List Nat}

theorem nil : Opened t p [] where
  standsAt := by simp
  behind := by simp
  inward := .nil
  length_le := Nat.zero_le _

theorem push (h : Opened t p starts) (hp : p ≤ start) (hm : Mark.opening.StandsAt t start)
    (hmax : starts.length < maxDepth) : Opened t (start + 2) (start :: starts) := by
  have hbefore : ∀ s ∈ starts, s < start := by
    intro s hs
    have := h.behind s hs
    omega
  constructor
  · exact List.forall_mem_cons.2 ⟨hm, h.standsAt⟩
  · refine List.forall_mem_cons.2 ⟨Nat.le_refl _, ?_⟩
    intro s hs
    exact Nat.add_le_add_right (Nat.le_of_lt (hbefore s hs)) 2
  · exact List.pairwise_cons.2 ⟨hbefore, h.inward⟩
  · exact hmax

theorem pop (h : Opened t p (start :: starts)) (hp : p + 2 ≤ p') : Opened t p' starts where
  standsAt s hs := h.standsAt s (List.mem_cons_of_mem _ hs)
  behind s hs := Nat.le_trans (h.behind s (List.mem_cons_of_mem _ hs)) (Nat.le_of_add_right_le hp)
  inward := (List.pairwise_cons.1 h.inward).2
  length_le := Nat.le_of_succ_le h.length_le

/-- The blocks around the innermost one start before it. -/
theorem lt_of_mem (h : Opened t p (start :: starts)) {s : Nat} (hs : s ∈ starts) : s < start :=
  (List.pairwise_cons.1 h.inward).1 s hs

end Opened

/-! ## What holds of every trace -/

/-- The spans of the blocks that close, in that order. -/
def closedSpans (es : List Event) : List Span := es.filterMap Event.closed?

/-- The spans that are left open. -/
def unclosedSpans (es : List Event) : List Span := es.filterMap Event.unclosed?

section

variable {start stop depth : Nat} {inner shown : Text} {es : List Event}

@[simp]
theorem closedSpans_nil : closedSpans [] = [] := rfl

@[simp]
theorem closedSpans_block :
    closedSpans (.block start stop depth inner shown :: es) =
      ⟨start, stop, depth⟩ :: closedSpans es := rfl

@[simp]
theorem closedSpans_unterminated :
    closedSpans (.unterminated start stop depth :: es) = closedSpans es := rfl

@[simp]
theorem unclosedSpans_nil : unclosedSpans [] = [] := rfl

@[simp]
theorem unclosedSpans_block :
    unclosedSpans (.block start stop depth inner shown :: es) = unclosedSpans es := rfl

@[simp]
theorem unclosedSpans_unterminated :
    unclosedSpans (.unterminated start stop depth :: es) =
      ⟨start, stop, depth⟩ :: unclosedSpans es := rfl

end

/-- A span from an opening to a closing mark, at a depth that there can be. -/
structure Span.Marked (s : Span) (t : Text) : Prop where
  opening : Mark.opening.StandsAt t s.start
  closing : Mark.closing.StandsAt t (s.stop - 2)
  start_add_le : s.start + 4 ≤ s.stop
  one_le_depth : 1 ≤ s.depth
  depth_le : s.depth ≤ 10

/-- A span from an opening mark to the end of the text, at a depth that there can be. -/
structure Span.LeftOpen (s : Span) (t : Text) : Prop where
  opening : Mark.opening.StandsAt t s.start
  stop_eq : s.stop = t.length
  one_le_depth : 1 ≤ s.depth
  depth_le : s.depth ≤ 10

namespace Trace

variable {t : Text} {p : Nat} {starts : List Nat} {es : List Event}

theorem add_two_le_stop (h : Trace t p starts es) : ∀ s ∈ closedSpans es, p + 2 ≤ s.stop := by
  induction h with
  | finish => simp
  | unterminated => simp
  | opening hp _ _ _ ih =>
    intro s hs
    have := ih s hs
    omega
  | closing hp _ _ _ ih =>
    refine List.forall_mem_cons.2 ⟨hp, fun s hs => ?_⟩
    have := ih s hs
    omega

theorem lt_stop (h : Trace t p starts es) : ∀ s ∈ closedSpans es, p < s.stop :=
  fun s hs => Nat.lt_of_succ_lt (h.add_two_le_stop s hs)

/-- Each span starts with a block that is open, or later. -/
theorem start_mem_or_le (h : Trace t p starts es) :
    ∀ s ∈ closedSpans es ++ unclosedSpans es, s.start ∈ starts ∨ p ≤ s.start := by
  induction h with
  | finish => simp
  | unterminated hs => simp [hs]
  | opening hp _ _ _ ih =>
    intro s hs
    rcases ih s hs with hmem | hle
    · rcases List.mem_cons.1 hmem with hstart | hmem
      · exact .inr (hstart ▸ hp)
      · exact .inl hmem
    · exact .inr (by omega)
  | closing hp _ _ _ ih =>
    refine List.forall_mem_cons.2 ⟨.inl List.mem_cons_self, fun s hs => ?_⟩
    rcases ih s hs with hmem | hle
    · exact .inl (List.mem_cons_of_mem _ hmem)
    · exact .inr (by omega)

theorem marked (h : Trace t p starts es) (ho : Opened t p starts) :
    ∀ s ∈ closedSpans es, s.Marked t := by
  induction h with
  | finish => simp
  | unterminated => simp
  | opening hp hm hmax _ ih => exact ih (ho.push hp hm hmax)
  | @closing p start stop depth starts inner shown es hp hm hdepth _ ih =>
    have hstart : start + 2 ≤ p := ho.behind start List.mem_cons_self
    have hself : Span.Marked ⟨start, stop, depth⟩ t :=
      { opening := ho.standsAt start List.mem_cons_self
        closing := hm
        start_add_le := Nat.le_trans (Nat.add_le_add_right hstart 2) hp
        one_le_depth := hdepth ▸ Nat.succ_pos _
        depth_le := hdepth.trans_le ho.length_le }
    exact List.forall_mem_cons.2 ⟨hself, ih (ho.pop hp)⟩

theorem pairwise_stop (h : Trace t p starts es) :
    (closedSpans es).Pairwise fun s s' => s.stop < s'.stop := by
  induction h with
  | finish => exact .nil
  | unterminated => exact .nil
  | opening _ _ _ _ ih => exact ih
  | closing _ _ _ tail ih =>
    exact List.pairwise_cons.2 ⟨tail.lt_stop, ih⟩

/-- Of two blocks the one that closes first lies before the other or inside it. -/
theorem pairwise_nested (h : Trace t p starts es) (ho : Opened t p starts) :
    (closedSpans es).Pairwise fun s s' => s.stop ≤ s'.start ∨ s.Inside s' := by
  induction h with
  | finish => exact .nil
  | unterminated => exact .nil
  | opening hp hm hmax _ ih => exact ih (ho.push hp hm hmax)
  | closing hp _ _ tail ih =>
    refine List.pairwise_cons.2 ⟨fun s hs => ?_, ih (ho.pop hp)⟩
    rcases tail.start_mem_or_le s (List.mem_append_left _ hs) with hmem | hle
    · exact .inr ⟨ho.lt_of_mem hmem, tail.lt_stop s hs⟩
    · exact .inl hle

theorem unclosed?_dropLast (h : Trace t p starts es) : ∀ e ∈ es.dropLast, e.unclosed? = none := by
  induction h with
  | finish => simp
  | unterminated => simp
  | opening _ _ _ _ ih => exact ih
  | @closing p start stop depth starts inner shown es _ _ _ _ ih =>
    cases es with
    | nil => simp
    | cons e es => exact List.forall_mem_cons.2 ⟨rfl, ih⟩

theorem leftOpen (h : Trace t p starts es) (ho : Opened t p starts) :
    ∀ u ∈ unclosedSpans es, u.LeftOpen t := by
  induction h with
  | finish => simp
  | @unterminated p start depth starts hs hdepth =>
    have hself : Span.LeftOpen ⟨start, t.length, depth⟩ t :=
      { opening := ho.standsAt start hs
        stop_eq := rfl
        one_le_depth := hdepth ▸ List.length_pos_of_mem hs
        depth_le := hdepth.trans_le ho.length_le }
    exact List.forall_mem_cons.2 ⟨hself, by simp⟩
  | opening hp hm hmax _ ih => exact ih (ho.push hp hm hmax)
  | closing hp _ _ _ ih => exact ih (ho.pop hp)

/-- A block that closes does so before the one left open starts, or starts inside it. -/
theorem stop_le_or_lt (h : Trace t p starts es) (ho : Opened t p starts) :
    ∀ u ∈ unclosedSpans es, ∀ s ∈ closedSpans es, s.stop ≤ u.start ∨ u.start < s.start := by
  induction h with
  | finish => simp
  | unterminated => simp
  | opening hp hm hmax _ ih => exact ih (ho.push hp hm hmax)
  | closing hp _ _ tail ih =>
    intro u hu
    refine List.forall_mem_cons.2 ⟨?_, ih (ho.pop hp) u hu⟩
    rcases tail.start_mem_or_le u (List.mem_append_right _ hu) with hmem | hle
    · exact .inr (ho.lt_of_mem hmem)
    · exact .inl hle

/-- Where nothing is left open, each open block closes, and no other that closes started before. -/
theorem countP_start_lt (h : Trace t p starts es) (hall : unclosedSpans es = []) {q : Nat} (hq : q ≤ p) :
    (closedSpans es).countP (·.start < q) = starts.countP (· < q) := by
  induction h with
  | finish => rfl
  | unterminated => cases hall
  | opening hp _ _ _ ih =>
    rw [ih hall (by omega), List.countP_cons_of_neg]
    simpa using Nat.le_trans hq hp
  | closing hp _ _ _ ih => rw [closedSpans_block, List.countP_cons, List.countP_cons, ih hall (by omega)]

/-- Where nothing is left open, the depth of a block counts the blocks around it. -/
theorem depth_eq_countP (h : Trace t p starts es) (ho : Opened t p starts) (hall : unclosedSpans es = []) :
    ∀ s ∈ closedSpans es, s.depth = 1 + (closedSpans es).countP (s.Inside ·) := by
  induction h with
  | finish => simp
  | unterminated => cases hall
  | opening hp hm hmax _ ih => exact ih (ho.push hp hm hmax) hall
  | @closing p start stop depth starts inner shown es hp _ hdepth tail ih =>
    have hstop : ∀ s ∈ closedSpans es, stop < s.stop := tail.lt_stop
    refine List.forall_mem_cons.2 ⟨?_, fun s hs => ?_⟩
    · -- around the block are those that start before it and close later, which are those open now
      have hstart : start ≤ stop := by have := ho.behind start List.mem_cons_self; omega
      have haround : (closedSpans es).countP (Span.Inside ⟨start, stop, depth⟩ ·) = starts.length := by
        calc (closedSpans es).countP (Span.Inside ⟨start, stop, depth⟩ ·)
            = (closedSpans es).countP (·.start < start) :=
              List.countP_congr fun s hs => by simp [Span.Inside, hstop s hs]
          _ = starts.countP (· < start) := tail.countP_start_lt hall hstart
          _ = starts.length := List.countP_eq_length.2 fun s hs => by simpa using ho.lt_of_mem hs
      rw [closedSpans_block, List.countP_cons_of_neg (by simp [Span.Inside]), haround, hdepth, Nat.add_comm]
    · have hnot : ¬ s.Inside ⟨start, stop, depth⟩ := Span.not_inside_of_le (Nat.le_of_lt (hstop s hs))
      rw [closedSpans_block, List.countP_cons_of_neg (by simpa using hnot)]
      exact ih (ho.pop hp) hall s hs

end Trace

/-! ## What a listener is told -/

/-- The notices tell of properly nested spans of a text, in the order in which blocks close. -/
structure ProperlyNested (t : Text) (ns : List Notice) : Prop where
  marked : ∀ s ∈ ns.filterMap Notice.closed?, s.Marked t
  stop_lt : (ns.filterMap Notice.closed?).Pairwise fun s s' => s.stop < s'.stop
  nested : (ns.filterMap Notice.closed?).Pairwise fun s s' => s.stop ≤ s'.start ∨ s.Inside s'
  /-- Only the last notice can tell that the text leaves a block open. -/
  unclosed_last : ∀ n ∈ ns.dropLast, n.unclosed? = none
  leftOpen : ∀ u ∈ ns.filterMap Notice.unclosed?, u.LeftOpen t
  stop_le_or_lt : ∀ u ∈ ns.filterMap Notice.unclosed?, ∀ s ∈ ns.filterMap Notice.closed?,
    s.stop ≤ u.start ∨ u.start < s.start
  depth_eq : ns.filterMap Notice.unclosed? = [] → ∀ s ∈ ns.filterMap Notice.closed?,
    s.depth = 1 + (ns.filterMap Notice.closed?).countP (s.Inside ·)

/-- A notice before the last one tells of the global rules or of an event before the last one. -/
theorem mem_dropLast_notices {c : Converter} {options : Options} {t : Text} {n : Notice}
    (hn : n ∈ (c.convertMarkup options t).notices.dropLast) :
    (∃ adds removes, n = .globalRules adds removes) ∨
      ∃ e ∈ (Reading.ofText (options.dialect.render · c.variant) options.protect t).events.dropLast,
        n = .reading e := by
  have hrules : ∀ m ∈ ((overlay? options c.variant t).map fun o =>
      Notice.globalRules o.adds.size o.suppressed.length).toList,
      ∃ adds removes, m = .globalRules adds removes := by
    cases overlay? options c.variant t with
    | none => simp
    | some o => simp
  rw [Converter.convertMarkup, List.dropLast_append] at hn
  split at hn
  · exact .inl (hrules n (List.mem_of_mem_dropLast hn))
  · rcases List.mem_append.1 hn with hn | hn
    · exact .inl (hrules n hn)
    · rw [← List.map_dropLast] at hn
      obtain ⟨e, he, rfl⟩ := List.mem_map.1 hn
      exact .inr ⟨e, he, rfl⟩

/-- Every conversion tells of properly nested spans of its text, whatever the dialect. -/
theorem properlyNested_notices (c : Converter) (options : Options) (t : Text) :
    ProperlyNested t (c.convertMarkup options t).notices := by
  have htrace := trace_read (options.dialect.render · c.variant) options.protect 0 [] t (.self t)
  have hclosed := c.filterMap_notices (f := Notice.closed?) (fun _ _ => rfl) options t
  have hunclosed := c.filterMap_notices (f := Notice.unclosed?) (fun _ _ => rfl) options t
  constructor
  · rw [hclosed]
    exact htrace.marked .nil
  · rw [hclosed]
    exact htrace.pairwise_stop
  · rw [hclosed]
    exact htrace.pairwise_nested .nil
  · intro n hn
    rcases mem_dropLast_notices hn with ⟨adds, removes, rfl⟩ | ⟨e, he, rfl⟩
    · rfl
    · exact htrace.unclosed?_dropLast e he
  · rw [hunclosed]
    exact htrace.leftOpen .nil
  · rw [hclosed, hunclosed]
    exact htrace.stop_le_or_lt .nil
  · rw [hclosed, hunclosed]
    exact htrace.depth_eq_countP .nil

end HanVariants.Markup
