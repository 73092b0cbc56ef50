import HanVariants.Proofs.Markup.Page
/-!
# What the variant of a scan matters for

A page is scanned for one variant, since an outer block holds what is shown for it in place of the
blocks inside. The variant does not matter otherwise. `blocks` lists the blocks that a scan reads, and
how many are open with each; where those inside others show the same for two variants, both scans read
the same blocks (`blocks_congr`). How deep the blocks of a page stand is the same for every variant
(`map_depth_blocks`), so a page without a block inside another gives one list of rules
(`globalRules_of_nested_agree`).
-/

namespace HanVariants.Markup.Page

open Text

/-- A block that a scan reads. -/
structure ScannedBlock where
  /-- The number of blocks that are open where it closes, this one included. -/
  depth : Nat
  block : Block
deriving DecidableEq, Repr

/-- The blocks that a scan reads on, with the texts of the open blocks, in the order in which they
close. -/
def blocks (v : Variant) (frames : List Text) (t : Text) : List ScannedBlock :=
  match frames with
  | [] =>
    match _h : cutOutside? false t with
    | none => []
    | some (_, _, after) => blocks v [[]] after
  | frame :: outer =>
    match _h : cutInside? t with
    | none => []
    | some (before, .opening, after) =>
      if frames.length < maxDepth then blocks v ([] :: (frame ++ before) :: outer) after
      else blocks v ((frame ++ before ++ Mark.opening.text) :: outer) after
    | some (before, .closing, after) =>
      let block := Block.parse (frame ++ before)
      ⟨frames.length, block⟩ :: blocks v (addText (block.render v) outer) after
termination_by t.length
decreasing_by
  · exact length_cutOutside? _h
  all_goals exact length_cutInside? _h

/-- How deep the blocks of a text stand that close in it, with `depth` blocks open before it. Only the
marks are read. -/
def depths (depth : Nat) (t : Text) : List Nat :=
  match depth with
  | 0 =>
    match _h : cutOutside? false t with
    | none => []
    | some (_, _, after) => depths 1 after
  | outer + 1 =>
    match _h : cutInside? t with
    | none => []
    | some (_, .opening, after) => depths (if outer + 1 < maxDepth then outer + 2 else outer + 1) after
    | some (_, .closing, after) => (outer + 1) :: depths outer after
termination_by t.length
decreasing_by
  · exact length_cutOutside? _h
  all_goals exact length_cutInside? _h

/-- Some block of the page closes inside another. -/
def HasNested (t : Text) : Prop := ∃ d ∈ depths 0 t, 2 ≤ d

instance (t : Text) : Decidable (HasNested t) := inferInstanceAs (Decidable (∃ d ∈ depths 0 t, 2 ≤ d))

/-! ## The blocks of one scan -/

section

variable {v : Variant} {t : Text}

theorem blocks_outside :
    blocks v [] t =
      match cutOutside? false t with
      | none => []
      | some (_, _, after) => blocks v [[]] after := by
  rw [blocks]
  split
  · next h => rw [h]
  · next h => rw [h]

theorem blocks_inside (frame : Text) (outer : List Text) :
    blocks v (frame :: outer) t =
      match cutInside? t with
      | none => []
      | some (before, .opening, after) =>
        if outer.length + 1 < maxDepth then blocks v ([] :: (frame ++ before) :: outer) after
        else blocks v ((frame ++ before ++ Mark.opening.text) :: outer) after
      | some (before, .closing, after) =>
        ⟨outer.length + 1, Block.parse (frame ++ before)⟩ ::
          blocks v (addText ((Block.parse (frame ++ before)).render v) outer) after := by
  rw [blocks]
  split
  · next h => rw [h]
  · next h =>
    rw [h]
    rfl
  · next h =>
    rw [h]
    rfl

theorem depths_outside :
    depths 0 t =
      match cutOutside? false t with
      | none => []
      | some (_, _, after) => depths 1 after := by
  rw [depths]
  split
  · next h => rw [h]
  · next h => rw [h]

theorem depths_inside (outer : Nat) :
    depths (outer + 1) t =
      match cutInside? t with
      | none => []
      | some (_, .opening, after) => depths (if outer + 1 < maxDepth then outer + 2 else outer + 1) after
      | some (_, .closing, after) => (outer + 1) :: depths outer after := by
  rw [depths]
  split
  · next h => rw [h]
  · next h => rw [h]
  · next h => rw [h]

theorem length_addText (u : Text) (frames : List Text) : (addText u frames).length = frames.length := by
  cases frames <;> rfl

/-- The scan gives the rules of the blocks that it reads. -/
theorem scan_eq_filterMap_blocks (v : Variant) (frames : List Text) (t : Text) :
    scan v frames t = (blocks v frames t).filterMap (·.block.globalRule?) := by
  fun_induction blocks v frames t with
  | case1 t h =>
    rw [scan_outside, h]
    rfl
  | case2 t before l after h ih =>
    rw [scan_outside, h]
    exact ih
  | case3 t frame outer h =>
    rw [scan_inside, h]
    rfl
  | case4 t frame outer before after h hd ih =>
    rw [scan_inside, h, if_pos hd, ← ih]
    exact if_pos hd
  | case5 t frame outer before after h hd ih =>
    rw [scan_inside, h, if_neg hd, ← ih]
    exact if_neg hd
  | case6 t frame outer before after h block ih =>
    rw [scan_inside, h, List.filterMap_cons]
    dsimp only
    rw [ih]
    cases (Block.parse (frame ++ before)).globalRule? <;> rfl

/-- How deep the blocks stand does not depend on the texts inside them, nor on the variant. -/
theorem map_depth_blocks (v : Variant) (frames : List Text) (t : Text) :
    (blocks v frames t).map (·.depth) = depths frames.length t := by
  fun_induction blocks v frames t with
  | case1 t h =>
    rw [List.length_nil, depths_outside, h]
    rfl
  | case2 t before l after h ih =>
    rw [List.length_nil, depths_outside, h]
    exact ih
  | case3 t frame outer h =>
    rw [List.length_cons, depths_inside, h]
    rfl
  | case4 t frame outer before after h hd ih =>
    rw [if_pos hd, ih]
    change _ = depths (outer.length + 1) t
    rw [depths_inside (t := t), h]
    exact congrArg (depths · after) (if_pos hd).symm
  | case5 t frame outer before after h hd ih =>
    rw [if_neg hd, ih]
    change _ = depths (outer.length + 1) t
    rw [depths_inside (t := t), h]
    exact congrArg (depths · after) (if_neg hd).symm
  | case6 t frame outer before after h block ih =>
    rw [List.length_cons, depths_inside, h, List.map_cons, ih, length_addText]

theorem hasNested_iff (v : Variant) : HasNested t ↔ ∃ b ∈ blocks v [] t, 2 ≤ b.depth := by
  have hdepths : depths 0 t = (blocks v [] t).map (·.depth) := (map_depth_blocks v [] t).symm
  unfold HasNested
  rw [hdepths]
  simp only [List.mem_map, exists_exists_and_eq_and]

end

/-! ## Two scans -/

/-- Two scans with the same blocks open read the same blocks, if those that close inside others show
the same for both variants. -/
theorem blocks_congr {v w : Variant} {frames : List Text} {t : Text}
    (h : ∀ b ∈ blocks v frames t, 2 ≤ b.depth → b.block.render v = b.block.render w) :
    blocks v frames t = blocks w frames t := by
  fun_induction blocks v frames t with
  | case1 t hcut => rw [blocks_outside, hcut]
  | case2 t before l after hcut ih =>
    rw [blocks_outside (v := w), hcut]
    exact ih h
  | case3 t frame outer hcut => rw [blocks_inside, hcut]
  | case4 t frame outer before after hcut hd ih =>
    rw [if_pos hd] at h ⊢
    rw [blocks_inside (v := w), hcut, ih h]
    exact (if_pos hd).symm
  | case5 t frame outer before after hcut hd ih =>
    rw [if_neg hd] at h ⊢
    rw [blocks_inside (v := w), hcut, ih h]
    exact (if_neg hd).symm
  | case6 t frame outer before after hcut block ih =>
    obtain ⟨hblock, hrest⟩ := List.forall_mem_cons.1 h
    -- what the block shows is read on only where another block is open around it
    have hshown : addText (block.render v) outer = addText (block.render w) outer := by
      cases outer with
      | nil => rfl
      | cons f outer => rw [hblock (by simp)]
    rw [blocks_inside (v := w), hcut, ih hrest, hshown]
    rfl

/-- Where the blocks inside others that a scan reads show the same for another variant, both variants
have the same global rules in the same order. A page without such blocks can be scanned for any
variant, and then gives for each variant the edits that it makes when scanned for it. -/
theorem globalRules_of_nested_agree (t : Text) :
    (∀ v w, (∀ b ∈ blocks v [] t, 2 ≤ b.depth → b.block.render v = b.block.render w) →
      globalRules t v = globalRules t w) ∧
    (¬ HasNested t → ∀ v, edits (globalRules t .zh) v = Dialect.standard.edits t v) := by
  have hagree : ∀ v w, (∀ b ∈ blocks v [] t, 2 ≤ b.depth → b.block.render v = b.block.render w) →
      globalRules t v = globalRules t w := by
    intro v w h
    unfold globalRules
    rw [scan_eq_filterMap_blocks, scan_eq_filterMap_blocks, blocks_congr h]
  refine ⟨hagree, fun hnested v => ?_⟩
  have hrules : globalRules t .zh = globalRules t v :=
    hagree .zh v fun b hb hdepth => absurd ((hasNested_iff .zh).2 ⟨b, hb, hdepth⟩) hnested
  exact congrArg (edits · v) hrules

/-- A page whose rule names a word by a block inside it. -/
def nestedPage : Text := "-{H|zh-cn:-{zh-hans:软件;zh-hant:軟體}-;zh-tw:軟體}-".toList

/-- The block inside shows the same in the mainland and in Singapore, so both read the same rule; in
Taiwan it shows another word. -/
theorem globalRules_of_nested_agree_software :
    (∀ b ∈ blocks .cn [] nestedPage, 2 ≤ b.depth → b.block.render .cn = b.block.render .sg) ∧
      globalRules nestedPage .cn = globalRules nestedPage .sg ∧
      globalRules nestedPage .cn ≠ globalRules nestedPage .tw ∧
      ¬ HasNested "-{H|zh-cn:软件;zh-tw:軟體}-软件".toList ∧
      edits (globalRules "-{H|zh-cn:软件;zh-tw:軟體}-软件".toList .zh) .tw =
        Dialect.standard.edits "-{H|zh-cn:软件;zh-tw:軟體}-软件".toList .tw := by
  have hagree : ∀ b ∈ blocks .cn [] nestedPage, 2 ≤ b.depth → b.block.render .cn = b.block.render .sg := by
    decide +kernel
  have hnested : ¬ HasNested "-{H|zh-cn:软件;zh-tw:軟體}-软件".toList := by decide +kernel
  exact ⟨hagree, (globalRules_of_nested_agree _).1 .cn .sg hagree, by decide +kernel, hnested,
    (globalRules_of_nested_agree _).2 hnested .tw⟩

end HanVariants.Markup.Page
