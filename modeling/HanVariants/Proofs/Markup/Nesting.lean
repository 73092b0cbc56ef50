import HanVariants.Markup.Conversion
import HanVariants.Proofs.Markup.Regions
/-!
# Blocks inside blocks

What a text with blocks becomes is told here without a stack: `body` reads a block, one character
after the other, and where another block opens inside it, reads that one first and puts its value in
its place; `outside` does the same for what stands outside every block. A reading keeps the open
blocks in a list of frames instead. Both agree (`convertMarkup_eq_outside`): at any point, with any
frames open, reading on comes to what the rest of the innermost block is, put into its frame
(`value_read_inside`).
-/

namespace HanVariants.Markup

/-! ## A block -/

/-- What is read after the mark that opens a block: up to its closing mark, or else to the end of the
text. -/
structure Body where
  /-- The text of the block, with the values of the blocks inside it in their places. -/
  text : Text := []
  /-- The texts of the blocks that close inside it, in that order. -/
  inner : List Text := []
  /-- The number of characters read, the closing mark included. -/
  length : Nat := 0
  /-- Whether the closing mark was found. -/
  closed : Bool := false

namespace Body

/-- What the block becomes: what is shown for its text, or what was written if it does not close. -/
def value (render : Text → Text) (b : Body) : Text :=
  if b.closed then render b.text else '-' :: '{' :: b.text

/-- The texts of the blocks that close, this block included. -/
def texts (b : Body) : List Text := if b.closed then b.inner ++ [b.text] else b.inner

/-- The body with `n` characters read before it. -/
def prepend (t : Text) (ts : List Text) (n : Nat) (b : Body) : Body :=
  { b with text := t ++ b.text, inner := ts ++ b.inner, length := n + b.length }

end Body

theorem length_drop_lt (t : Text) (n : Nat) (c c' : Char) : (t.drop n).length < (c :: c' :: t).length := by
  simp only [List.length_drop, List.length_cons]
  omega

/-- Reads a block, of which `depth - 1` others are around it; no more than 10 are open at once. -/
def body (render : Text → Text) (depth : Nat) (t : Text) : Body :=
  match t with
  | [] => {}
  | '}' :: '-' :: _ => { length := 2, closed := true }
  | '-' :: '{' :: t =>
    if depth < 10 then
      let b := body render (depth + 1) t
      (body render depth (t.drop b.length)).prepend (b.value render) b.texts (2 + b.length)
    else (body render depth t).prepend ['-', '{'] [] 2
  | c :: t => (body render depth t).prepend [c] [] 1
termination_by t.length
decreasing_by
  · exact length_drop_lt t 0 _ _
  · exact length_drop_lt t _ _ _
  · exact length_drop_lt t 0 _ _
  · exact Nat.lt_succ_self _

/-! ## A text -/

/-- What a text becomes, and the texts of the blocks that close in it, in that order. -/
@[ext]
structure Value where
  text : Text
  closed : List Text

def Value.prepend (t : Text) (ts : List Text) (v : Value) : Value := ⟨t ++ v.text, ts ++ v.closed⟩

/-- The region that starts a text, where regions are protected. -/
def protected? (protect : Bool) (t : Text) : Option Text := if protect then region? t else none

theorem region?_ne_nil {t r : Text} (h : region? t = some r) : r ≠ [] :=
  (eq_of_readRegion? (by rw [readRegion?_eq, h]; rfl)).2

theorem protected?_ne_nil {protect : Bool} {t r : Text} (h : protected? protect t = some r) : r ≠ [] := by
  cases protect with
  | false => cases h
  | true => exact region?_ne_nil h

/-- Reads a text, `before` being what stands in front of it since the last block or region. -/
def outside (plain render : Text → Text) (protect : Bool) (before t : Text) : Value :=
  match t with
  | [] => ⟨plain before, []⟩
  | '-' :: '{' :: t =>
    let b := body render 1 t
    (outside plain render protect [] (t.drop b.length)).prepend (plain before ++ b.value render) b.texts
  | c :: t =>
    match _h : protected? protect (c :: t) with
    | some region =>
      (outside plain render protect [] ((c :: t).drop region.length)).prepend (plain before ++ region) []
    | none => outside plain render protect (before ++ [c]) t
termination_by t.length
decreasing_by
  · exact length_drop_lt t _ _ _
  · have := List.length_pos_iff.2 (protected?_ne_nil _h)
    simp only [List.length_drop, List.length_cons]
    omega
  · simp

/-! ## Cuts, character by character -/

section Cuts

variable {c : Char} {t : Text}

theorem cutInside?_opening : cutInside? ('-' :: '{' :: t) = some ([], .opening, t) := rfl

theorem cutInside?_closing : cutInside? ('}' :: '-' :: t) = some ([], .closing, t) := rfl

theorem read?_two_eq_none {a b : Char} (h : ∀ t', c = a → t = b :: t' → False) :
    Text.read? [a, b] (c :: t) = none := by
  apply Text.read?_eq_none
  intro hp
  obtain ⟨rfl, t', rfl⟩ := List.cons_prefix_cons.1 hp
  exact h t' rfl rfl

theorem cutInside?_cons (ho : ∀ t', c = '-' → t = '{' :: t' → False)
    (hc : ∀ t', c = '}' → t = '-' :: t' → False) :
    cutInside? (c :: t) = (cutInside? t).map fun (before, m, after) => (c :: before, m, after) := by
  have hr : readMark? (c :: t) = none := by
    rw [readMark?, Mark.text, Mark.text, read?_two_eq_none ho, read?_two_eq_none hc]
    rfl
  rw [cutInside?, Text.cutBy?, hr]
  rfl

theorem cutOutside?_opening {protect : Bool} :
    cutOutside? protect ('-' :: '{' :: t) = some ([], .opening, t) := rfl

theorem cutOutside?_nil {protect : Bool} : cutOutside? protect [] = none := by
  cases protect <;> rfl

theorem readLandmark?_cons {protect : Bool} (ho : ∀ t', c = '-' → t = '{' :: t' → False) :
    readLandmark? protect (c :: t) =
      (protected? protect (c :: t)).map fun r => (.region r, (c :: t).drop r.length) := by
  rw [readLandmark?, Mark.text, read?_two_eq_none ho, readRegion?_eq]
  cases protect with
  | false => rfl
  | true => simp [protected?, Option.map_map, Function.comp_def]

end Cuts

/-! ## Reading with frames -/

namespace Reading

/-- What a reading comes to. -/
def value (plain : Text → Text) (r : Reading) : Value := ⟨r.text plain, r.blockTexts⟩

section

variable {plain render : Text → Text} {protect : Bool}

theorem value_addPieces (ps : List Piece) (r : Reading) :
    (r.addPieces ps).value plain = (r.value plain).prepend (({ pieces := ps } : Reading).text plain) [] := by
  simp [value, Value.prepend, addPieces, text, blockTexts]

theorem value_addEvent_block (start stop depth : Nat) (inner shown : Text) (r : Reading) :
    (r.addEvent (.block start stop depth inner shown)).value plain =
      (r.value plain).prepend [] [inner] := by
  simp [value, Value.prepend, addEvent, text, blockTexts]

theorem value_unterminated (stop : Nat) (frame : Frame) (outer : List Frame) (last : Text) :
    (unterminated stop frame outer last).value plain =
      ⟨(frame.addText last :: outer).reverse.flatMap Frame.written, []⟩ := by
  simp only [value, unterminated, text, blockTexts, List.flatMap_map]
  rfl

/-- What a reading comes to once the innermost block closed and `shown` is put in its place. -/
def resume (render : Text → Text) (protect : Bool) (position : Nat) (outer : List Frame) (shown t : Text) :
    Reading :=
  match outer with
  | [] => (read render protect position [] t).addPieces [.verbatim shown]
  | f :: outer => read render protect position (f.addText shown :: outer) t

theorem read_inside (position : Nat) (frame : Frame) (outer : List Frame) (t : Text) :
    read render protect position (frame :: outer) t =
      match cutInside? t with
      | none => unterminated (position + t.length) frame outer t
      | some (before, .opening, after) =>
        if outer.length + 1 < maxDepth then
          read render protect (position + before.length + 2)
            ({ start := position + before.length } :: frame.addText before :: outer) after
        else
          read render protect (position + before.length + 2)
            (frame.addText (before ++ Mark.opening.text) :: outer) after
      | some (before, .closing, after) =>
        addEvent (.block frame.start (position + before.length + 2) (outer.length + 1)
            (frame.text ++ before) (render (frame.text ++ before)))
          (resume render protect (position + before.length + 2) outer (render (frame.text ++ before)) after) := by
  rw [read]
  split
  · next h => rw [h]
  · next h =>
    rw [h]
    rfl
  · next h =>
    rw [h]
    cases outer <;> rfl

theorem read_cons (position : Nat) (frame : Frame) (outer : List Frame) {c : Char} {t : Text}
    (ho : ∀ t', c = '-' → t = '{' :: t' → False) (hc : ∀ t', c = '}' → t = '-' :: t' → False) :
    read render protect position (frame :: outer) (c :: t) =
      read render protect (position + 1) (frame.addText [c] :: outer) t := by
  rw [read_inside, read_inside, cutInside?_cons ho hc]
  have hposition : ∀ u : Text, position + (c :: u).length = position + 1 + u.length := by
    intro u
    rw [List.length_cons]
    omega
  have htext : ∀ u : Text, frame.text ++ c :: u = (frame.addText [c]).text ++ u := by
    intro u
    rw [Frame.addText, List.append_assoc, List.singleton_append]
  have hadd : ∀ u : Text, frame.addText (c :: u) = (frame.addText [c]).addText u := by
    intro u
    rw [Frame.addText, htext]
    rfl
  cases cutInside? t with
  | none =>
    simp only [Option.map_none, unterminated, hposition t, hadd t]
    cases outer <;> rfl
  | some found =>
    obtain ⟨before, _ | _, after⟩ := found
    · simp only [Option.map_some, hposition before, hadd before, hadd (before ++ _), List.cons_append]
    · simp only [Option.map_some, hposition before, htext before]
      rfl

/-- What a reading with open frames comes to, where the rest of the innermost block is `b`. -/
def resumed (plain render : Text → Text) (protect : Bool) (position : Nat) (frame : Frame)
    (outer : List Frame) (b : Body) (t : Text) : Value :=
  if b.closed then
    ((resume render protect position outer (render (frame.text ++ b.text)) (t.drop b.length)).value plain).prepend
      [] (b.inner ++ [frame.text ++ b.text])
  else ⟨(frame.addText b.text :: outer).reverse.flatMap Frame.written, b.inner⟩

theorem resumed_prepend (position : Nat) (frame : Frame) (outer : List Frame) (b : Body) (u : Text)
    (ts : List Text) (n : Nat) (t : Text) :
    resumed plain render protect position frame outer (b.prepend u ts n) t =
      (resumed plain render protect position (frame.addText u) outer b (t.drop n)).prepend [] ts := by
  unfold resumed Body.prepend
  by_cases hb : b.closed
  · simp [hb, Value.prepend, Frame.addText]
  · simp [hb, Value.prepend, Frame.addText]

theorem length_body_of_not_closed (depth : Nat) (t : Text) (h : ¬ (body render depth t).closed) :
    t.length ≤ (body render depth t).length := by
  fun_induction body render depth t with
  | case1 => simp
  | case2 => simp at h
  | case3 depth t hd b ih ih' =>
    have := ih' h
    simp only [Body.prepend, List.length_cons, List.length_drop] at *
    omega
  | case4 depth t hd ih =>
    have := ih h
    simp only [Body.prepend, List.length_cons]
    omega
  | case5 depth c t _ _ ih =>
    have := ih h
    simp only [Body.prepend, List.length_cons]
    omega

theorem value_read_inside (depth : Nat) (t : Text) :
    ∀ (position : Nat) (frame : Frame) (outer : List Frame), outer.length + 1 = depth →
      ∃ position', (read render protect position (frame :: outer) t).value plain =
        resumed plain render protect position' frame outer (body render depth t) t := by
  fun_induction body render depth t with
  | case1 depth =>
    intro position frame outer _
    refine ⟨0, ?_⟩
    rw [read_inside]
    exact value_unterminated _ _ _ _
  | case2 depth t =>
    intro position frame outer _
    refine ⟨position + 2, ?_⟩
    rw [read_inside, cutInside?_closing]
    simp only [List.length_nil, List.append_nil, value_addEvent_block]
    simp [resumed]
  | case3 depth t hd b ih ih' =>
    intro position frame outer hdepth
    -- the frame waits below a new one, of which the block inside is the rest
    have hmax : outer.length + 1 < maxDepth := hdepth ▸ hd
    have hadd : ∀ u, (frame.addText []).addText u = frame.addText u := by
      intro u
      simp [Frame.addText]
    rw [read_inside, cutInside?_opening]
    simp only [if_pos hmax]
    obtain ⟨p, hp⟩ := ih (position + ([] : Text).length + 2) { start := position + ([] : Text).length }
      (frame.addText [] :: outer) (by simp [hdepth])
    change (_ = resumed plain render protect p _ _ b t) at hp
    rw [hp]
    by_cases hb : b.closed
    · -- its value goes into the frame, and the reading goes on there
      obtain ⟨p', hp'⟩ := ih' p (frame.addText (b.value render)) outer hdepth
      refine ⟨p', ?_⟩
      have hv : b.value render = render b.text := if_pos hb
      have hts : b.texts = b.inner ++ [b.text] := if_pos hb
      have hdrop : ('-' :: '{' :: t).drop (2 + b.length) = t.drop b.length := by
        rw [Nat.add_comm]
        rfl
      rw [resumed_prepend, hdrop, ← hp', resumed, if_pos hb, resume, hadd, hv, hts]
      rfl
    · -- a block that does not close takes the rest of the text
      have hrest : t.drop b.length = [] := List.drop_eq_nil_iff.2 (length_body_of_not_closed _ _ hb)
      have hv : b.value render = '-' :: '{' :: b.text := if_neg hb
      have hts : b.texts = b.inner := if_neg hb
      refine ⟨p, ?_⟩
      rw [hrest, body, resumed_prepend, resumed, if_neg hb, resumed, hv, hts]
      simp [Value.prepend, Frame.written, Frame.addText, Mark.text]
  | case4 depth t hd ih =>
    intro position frame outer hdepth
    -- no block opens any more, so the mark is text
    have hmax : ¬ outer.length + 1 < maxDepth := hdepth ▸ hd
    rw [read_inside, cutInside?_opening]
    simp only [if_neg hmax]
    obtain ⟨p, hp⟩ := ih (position + ([] : Text).length + 2) (frame.addText Mark.opening.text) outer hdepth
    refine ⟨p, hp.trans ?_⟩
    rw [resumed_prepend]
    rfl
  | case5 depth c t hc ho ih =>
    intro position frame outer hdepth
    obtain ⟨p, hp⟩ := ih (position + 1) (frame.addText [c]) outer hdepth
    refine ⟨p, ?_⟩
    rw [read_cons position frame outer ho hc, hp, resumed_prepend]
    rfl

/-! ## Outside every block -/

theorem outside_eq (before t : Text) :
    outside plain render protect before t =
      match cutOutside? protect t with
      | none => ⟨plain (before ++ t), []⟩
      | some (u, .opening, after) =>
        let b := body render 1 after
        (outside plain render protect [] (after.drop b.length)).prepend
          (plain (before ++ u) ++ b.value render) b.texts
      | some (u, .region region, after) =>
        (outside plain render protect [] after).prepend (plain (before ++ u) ++ region) [] := by
  fun_induction outside plain render protect before t with
  | case1 before => rw [cutOutside?_nil, List.append_nil]
  | case2 before t b _ => simp only [cutOutside?_opening, List.append_nil, b]
  | case3 before c t ho region hr _ =>
    rw [cutOutside?, Text.cutBy?, readLandmark?_cons ho, hr]
    simp
  | case4 before c t ho hr ih =>
    rw [ih, cutOutside?, cutOutside?, Text.cutBy?, readLandmark?_cons ho, hr, Option.map_none]
    rcases Text.cutBy? (readLandmark? protect) t with _ | ⟨u, _ | region, after⟩ <;>
      simp [List.append_assoc]

theorem read_outside (position : Nat) (t : Text) :
    read render protect position [] t =
      match cutOutside? protect t with
      | none => { pieces := [.outside t] }
      | some (u, .opening, after) =>
        (read render protect (position + u.length + 2) [{ start := position + u.length }] after).addPieces
          [.outside u]
      | some (u, .region region, after) =>
        (read render protect (position + u.length + region.length) [] after).addPieces
          [.outside u, .verbatim region] := by
  rw [read]
  split
  · next h => rw [h]
  · next h => rw [h]
  · next h => rw [h]

theorem value_read_outside (hplain : plain [] = []) (position : Nat) (t : Text) :
    (read render protect position [] t).value plain = outside plain render protect [] t := by
  induction ht : t.length using Nat.strongRecOn generalizing position t with
  | ind n ih =>
    subst ht
    rw [read_outside, outside_eq]
    cases hc : cutOutside? protect t with
    | none => simp [value, text, blockTexts]
    | some found =>
      obtain ⟨u, _ | region, after⟩ := found
      · -- the block is read with a single frame, below which nothing waits
        have hlt := length_cutOutside? hc
        obtain ⟨p, hp⟩ := @value_read_inside plain render protect 1 after (position + u.length + 2)
          { start := position + u.length } [] rfl
        simp only [value_addPieces, hp, resumed]
        by_cases hb : (body render 1 after).closed
        · have hrest := ih ((after.drop (body render 1 after).length).length)
            (by rw [List.length_drop]; omega) p _ rfl
          simp only [if_pos hb, resume, value_addPieces, hrest, Body.value, Body.texts]
          simp [Value.prepend, text]
        · have hrest : after.drop (body render 1 after).length = [] :=
            List.drop_eq_nil_iff.2 (length_body_of_not_closed _ _ hb)
          simp only [if_neg hb, hrest, Body.value, Body.texts]
          simp [Value.prepend, text, outside, hplain, Frame.written, Frame.addText, Mark.text]
      · have hlt := length_cutOutside? hc
        simp only [value_addPieces, ih _ hlt _ _ rfl]
        simp [Value.prepend, text]

end

/-- A block, and one that is never closed. -/
example : (ofText (fun t => '<' :: t ++ ['>']) false
    ['a', '-', '{', 'b', '}', '-', '-', '{', 'c']).text id = ['a', '<', 'b', '>', '-', '{', 'c'] := by cbv

end Reading

end HanVariants.Markup

namespace HanVariants.Converter

open Markup

theorem convert_nil (c : Converter) : c.convert [] = [] := by
  rw [convert, Automaton.segments]
  rfl

theorem convertWith_nil (c : Converter) (o : Overlay) : c.convertWith o [] = [] := by
  rw [convertWith, convertFrom]

theorem plain_nil (c : Converter) (o : Option Overlay) : Markup.plain c o [] = [] := by
  cases o with
  | none => exact c.convert_nil
  | some o => exact c.convertWith_nil o

/-- The conversion is chosen once: under the overlay of the page where global rules hold and change
anything. -/
theorem plain_overlay? (c : Converter) (options : Options) (t : Text) :
    let overlay := Overlay.ofEdits (options.dialect.edits t c.variant)
    Markup.plain c (overlay? options c.variant t) =
      if options.globalRules && !overlay.isEmpty then c.convertWith overlay else c.convert := by
  intro overlay
  unfold overlay?
  cases options.globalRules with
  | false => rfl
  | true =>
    change Markup.plain c (if overlay.isEmpty then none else some overlay) = _
    cases overlay.isEmpty <;> rfl

/-- Converting a text with blocks gives what the blocks inside blocks come to, whatever the dialect,
and reads the same texts of blocks in the same order. The text outside every block is converted in
one way: under the edits of the page where global rules hold and there are some, and else as it is. -/
theorem convertMarkup_eq_outside (c : Converter) (options : Options) (t : Text) :
    let overlay := Overlay.ofEdits (options.dialect.edits t c.variant)
    let plain := if options.globalRules && !overlay.isEmpty then c.convertWith overlay else c.convert
    let value := outside plain (options.dialect.render · c.variant) options.protect [] t
    (c.convertMarkup options t).text = value.text ∧
      (c.convertMarkup options t).blockTexts = value.closed := by
  intro overlay plain value
  have hplain : Markup.plain c (overlay? options c.variant t) = plain := c.plain_overlay? options t
  have hvalue := @Reading.value_read_outside _ (options.dialect.render · c.variant) options.protect
    (c.plain_nil (overlay? options c.variant t)) 0 t
  rw [hplain] at hvalue
  have htext : (c.convertMarkup options t).text =
      (Reading.ofText (options.dialect.render · c.variant) options.protect t).text
        (Markup.plain c (overlay? options c.variant t)) := rfl
  exact ⟨by rw [htext, hplain]; exact congrArg Value.text hvalue, congrArg Value.closed hvalue⟩

end HanVariants.Converter
