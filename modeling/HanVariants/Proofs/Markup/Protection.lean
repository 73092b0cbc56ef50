import HanVariants.Proofs.Markup.Page
/-!
# What a protected region changes

A protected region is put out as it is, and what stands before and after it is converted as if it
were alone (`text_convertMarkup_codeElement`). It is not without any effect there: a page is scanned
for its global rules as a whole, its regions included, and so a rule that stands in a region holds for
all of the page (`not_forall_code_content`). A region in which no block opens adds no rule.
-/

namespace HanVariants

namespace Text

/-- A text goes up to the first end of a word that stands nowhere before and whose last character it
has only once. -/
theorem upTo?_append {w x : Text} {c : Char} (hc : c ∉ w) (hx : ¬ w ++ [c] <:+: x) (t : Text) :
    upTo? (w ++ [c]) (x ++ (w ++ [c]) ++ t) = some (x ++ (w ++ [c])) := by
  refine find?_inits (List.prefix_append _ t) (by simp) fun s hs hlt => ?_
  rw [decide_eq_true_iff]
  rintro ⟨u, rfl⟩
  have hshort : u ++ (w ++ [c]) <+: x ++ w := by
    refine List.prefix_of_prefix_length_le hs ?_ ?_
    · exact ⟨[c] ++ t, by simp⟩
    · simp only [List.length_append, List.length_singleton] at hlt ⊢
      omega
  obtain ⟨r, hr⟩ := hshort
  rcases List.append_eq_append_iff.1 hr with ⟨y, hy, -⟩ | ⟨y, hy, hw⟩
  · exact hx ⟨u, y, by rw [hy]⟩
  · -- the end of the earlier word lies in the word itself
    rcases List.eq_nil_or_concat y with rfl | ⟨y, d, rfl⟩
    · exact hx ⟨u, [], by rw [List.append_nil, hy, List.append_nil]⟩
    · rw [List.concat_eq_append, ← List.append_assoc, ← List.append_assoc] at hy
      obtain ⟨-, hd⟩ := List.append_inj' hy rfl
      cases hd
      exact hc (by simp [hw])

end Text

namespace Markup

/-! ## A region -/

/-- A text in a `code` element. -/
def codeElement (x : Text) : Text := "<code>".toList ++ x ++ "</code>".toList

theorem codeElement_eq (x : Text) : codeElement x = "<code>".toList ++ x ++ "</code>".toList := rfl

theorem region?_codeElement {x : Text} (hx : ¬ "</code>".toList <:+: x) (t : Text) :
    region? (codeElement x ++ t) = some (codeElement x) := by
  have hscript : taggedRegion? "script".toList (codeElement x ++ t) = none :=
    if_neg fun h => by simp [codeElement_eq, List.cons_prefix_cons] at h
  have hstyle : taggedRegion? "style".toList (codeElement x ++ t) = none :=
    if_neg fun h => by simp [codeElement_eq, List.cons_prefix_cons] at h
  have hopen : codeElement x ++ t = "<code>".toList ++ (x ++ ("</code".toList ++ ['>']) ++ t) := by
    simp [codeElement_eq]
  have hcode : bareRegion? "code".toList (codeElement x ++ t) = some (codeElement x) := by
    unfold bareRegion?
    rw [if_pos ⟨_, hopen.symm⟩, hopen]
    change (Text.upTo? ("</code".toList ++ ['>'])
      (("<code>".toList ++ _).drop "<code>".toList.length)).map ("<code>".toList ++ ·) = _
    rw [List.drop_left, Text.upTo?_append (by decide) hx]
    simp [codeElement_eq]
  unfold region?
  rw [List.findSome?_cons, hscript, List.findSome?_cons, hstyle, List.findSome?_cons, hcode]

theorem region?_eq_none {c : Char} (hc : c ≠ '<') (t : Text) : region? (c :: t) = none := by
  have htagged : ∀ name, taggedRegion? name (c :: t) = none := fun name =>
    if_neg fun h => hc (List.cons_prefix_cons.1 h).1.symm
  have hbare : ∀ name, bareRegion? name (c :: t) = none := fun name =>
    if_neg fun h => hc (List.cons_prefix_cons.1 h).1.symm
  unfold region?
  simp only [List.findSome?_cons, List.findSome?_nil, htagged, hbare]

theorem protected?_eq_none {c : Char} (hc : c ≠ '<') (protect : Bool) (t : Text) :
    protected? protect (c :: t) = none := by
  cases protect with
  | false => rfl
  | true => exact region?_eq_none hc t

/-! ## A text in which no block opens -/

/-- No mark that opens a block begins in the first of two texts that follow each other. -/
def Unopened (u t : Text) : Prop := ∀ v c w, u = v ++ c :: w → ¬ Mark.opening.text <+: c :: (w ++ t)

namespace Unopened

variable {c : Char} {u t : Text}

theorem tail (h : Unopened (c :: u) t) : Unopened u t :=
  fun v d w e => h (c :: v) d w (congrArg (c :: ·) e)

theorem head (h : Unopened (c :: u) t) (t' : Text) (hc : c = '-') (ht : u ++ t = '{' :: t') : False :=
  h [] c u rfl ⟨t', by rw [hc, ht]; rfl⟩

theorem of_not_mem (h : '-' ∉ u) (t : Text) : Unopened u t := by
  rintro v c w rfl hp
  obtain ⟨rfl, -⟩ := List.cons_prefix_cons.1 hp
  exact h (by simp)

/-- A mark does not go over to a text that begins with none of its characters. -/
theorem of_not_isInfix (h : ¬ Mark.opening.text <:+: u) (ht : t.head? ≠ some '{') : Unopened u t := by
  rintro v c w rfl hp
  have hcw : ¬ Mark.opening.text <:+: c :: w := fun hi => h (hi.trans (List.suffix_append v _).isInfix)
  obtain ⟨rfl, t', ht'⟩ := List.cons_prefix_cons.1 hp
  exact not_follows_of_not_isInfix hcw ht t' rfl ht'.symm

end Unopened

section

variable {protect : Bool} {c : Char} {u t : Text}

theorem cutOutside?_cons (ho : ∀ t', c = '-' → t = '{' :: t' → False)
    (hr : protected? protect (c :: t) = none) :
    cutOutside? protect (c :: t) =
      (cutOutside? protect t).map fun (before, l, after) => (c :: before, l, after) := by
  rw [cutOutside?, Text.cutBy?, readLandmark?_cons ho, hr]
  rfl

theorem cutOutside?_region {r : Text} (ho : ∀ t', c = '-' → t = '{' :: t' → False)
    (hr : protected? protect (c :: t) = some r) :
    cutOutside? protect (c :: t) = some ([], .region r, (c :: t).drop r.length) := by
  rw [cutOutside?, Text.cutBy?, readLandmark?_cons ho, hr]
  rfl

/-- Text in which no block opens gives a page no rule. -/
theorem Page.globalRules_append (h : Unopened u t) (v : Variant) :
    Page.globalRules (u ++ t) v = Page.globalRules t v := by
  induction u with
  | nil => rfl
  | cons c u ih =>
    rw [← ih h.tail]
    unfold Page.globalRules
    rw [List.cons_append, Page.scan_outside, Page.scan_outside, cutOutside?_cons h.head rfl]
    rcases cutOutside? false (u ++ t) with _ | ⟨before, l, after⟩ <;> rfl

variable {plain render : Text → Text}

/-- Where neither a block opens nor a tag, reading only goes on. -/
theorem outside_append (h : Unopened u t) (hu : '<' ∉ u) (before : Text) :
    outside plain render protect before (u ++ t) = outside plain render protect (before ++ u) t := by
  induction u generalizing before with
  | nil => rw [List.nil_append, List.append_nil]
  | cons c u ih =>
    obtain ⟨hc, hu⟩ := not_or.1 (mt List.mem_cons.2 hu)
    have hcons : outside plain render protect before (c :: (u ++ t)) =
        outside plain render protect (before ++ [c]) (u ++ t) := by
      rw [Reading.outside_eq, Reading.outside_eq,
        cutOutside?_cons h.head (protected?_eq_none (Ne.symm hc) protect _)]
      rcases cutOutside? protect (u ++ t) with _ | ⟨v, _ | region, after⟩ <;> simp
    rw [List.cons_append, hcons, ih h.tail hu, List.append_assoc, List.singleton_append]

theorem outside_codeElement {x : Text} (hx : ¬ "</code>".toList <:+: x) (before t : Text) :
    outside plain render true before (codeElement x ++ t) =
      (outside plain render true [] t).prepend (plain before ++ codeElement x) [] := by
  have hregion : protected? true (codeElement x ++ t) = some (codeElement x) := region?_codeElement hx t
  have hcons : codeElement x ++ t = '<' :: ("code>".toList ++ x ++ "</code>".toList ++ t) := by
    simp [codeElement_eq]
  rw [hcons] at hregion
  rw [Reading.outside_eq, hcons, cutOutside?_region (by simp) hregion, ← hcons, List.drop_left]
  simp

end

end Markup

/-! ## A page with a region -/

namespace Converter

open Markup

/-- How text outside every block is converted under edits. -/
def plainUnder (c : Converter) (edits : List Edit) : Text → Text :=
  if (Overlay.ofEdits edits).isEmpty then c.convert else c.convertWith (.ofEdits edits)

/-- What a text becomes under edits, its protected regions left as they are. -/
def convertUnder (c : Converter) (edits : List Edit) (t : Text) : Text :=
  (outside (c.plainUnder edits) (Dialect.standard.render · c.variant) true [] t).text

theorem plain_extended (c : Converter) (t : Text) :
    Markup.plain c (overlay? .extended c.variant t) =
      c.plainUnder (Dialect.standard.edits t c.variant) := by
  refine (c.plain_overlay? .extended t).trans ?_
  unfold plainUnder
  change (if true && !(Overlay.ofEdits (Dialect.standard.edits t c.variant)).isEmpty then
    c.convertWith (.ofEdits (Dialect.standard.edits t c.variant)) else c.convert) = _
  cases (Overlay.ofEdits (Dialect.standard.edits t c.variant)).isEmpty <;> rfl

theorem text_convertMarkup_extended (c : Converter) (t : Text) :
    (c.convertMarkup .extended t).text = c.convertUnder (Dialect.standard.edits t c.variant) t := by
  rw [text_convertMarkup, plain_extended]
  rfl

section

variable (c : Converter) {a x : Text}

/-- Text without a block and without a tag is converted as it is. -/
theorem convertUnder_of_not_mem (ha : ¬ Mark.opening.text <:+: a) (ha' : '<' ∉ a) (edits : List Edit) :
    c.convertUnder edits a = c.plainUnder edits a := by
  have halone : Unopened a [] := .of_not_isInfix ha (by simp)
  unfold convertUnder
  rw [← List.append_nil a, outside_append halone ha']
  simp [outside]

theorem convertUnder_codeElement (ha : ¬ Mark.opening.text <:+: a) (ha' : '<' ∉ a)
    (hx : ¬ "</code>".toList <:+: x) (edits : List Edit) (b : Text) :
    c.convertUnder edits (a ++ (codeElement x ++ b)) =
      c.convertUnder edits a ++ codeElement x ++ c.convertUnder edits b := by
  have hopened : Unopened a (codeElement x ++ b) := .of_not_isInfix ha (by simp [codeElement_eq])
  rw [c.convertUnder_of_not_mem ha ha']
  unfold convertUnder
  rw [outside_append hopened ha', outside_codeElement hx]
  rfl

/-- The edits of a page come from all of it, and a region in which no block opens makes none. -/
theorem edits_codeElement (ha : ¬ Mark.opening.text <:+: a) (hx : ¬ Mark.opening.text <:+: x) (b : Text)
    (v : Variant) :
    Dialect.standard.edits (a ++ (codeElement x ++ b)) v = Dialect.standard.edits b v := by
  have hrules : Page.globalRules (a ++ (codeElement x ++ b)) v = Page.globalRules b v := by
    rw [codeElement_eq]
    rw [List.append_assoc, List.append_assoc, Page.globalRules_append (.of_not_isInfix ha (by simp)),
      Page.globalRules_append (.of_not_mem (by decide) _),
      Page.globalRules_append (.of_not_isInfix hx (by simp)),
      Page.globalRules_append (.of_not_mem (by decide) _)]
  exact congrArg (Page.edits · v) hrules

/-- A protected region is put out as it is, and what stands before and after it becomes what it does
alone, under the edits of the whole page. So the content of a region matters there only by the rules
that it gives to the page; where no block opens in it, the page has just the rules of what follows. -/
theorem text_convertMarkup_codeElement (ha : ¬ Mark.opening.text <:+: a) (ha' : '<' ∉ a)
    (hx : ¬ "</code>".toList <:+: x) (b : Text) :
    let page := a ++ (codeElement x ++ b)
    let edits := Dialect.standard.edits page c.variant
    (c.convertMarkup .extended page).text =
        c.convertUnder edits a ++ codeElement x ++ c.convertUnder edits b ∧
      (¬ Mark.opening.text <:+: x → edits = Dialect.standard.edits b c.variant) := by
  intro page edits
  refine ⟨?_, fun hx' => edits_codeElement ha hx' b c.variant⟩
  rw [text_convertMarkup_extended]
  exact c.convertUnder_codeElement ha ha' hx edits b

end

/-! ### A rule in a region -/

theorem convertUnder_nil (c : Converter) (edits : List Edit) : c.convertUnder edits [] = [] := by
  rw [c.convertUnder_of_not_mem (by decide) (by decide)]
  unfold plainUnder
  split
  · exact c.convert_nil
  · exact c.convertWith_nil _

/-- The block that names a word in two variants, with its marks. -/
def markedComputerBlock : Text := Mark.opening.text ++ computerBlock ++ Mark.closing.text

/-- A page that has the word and then the block in a region. -/
def computerPage : Text := "計算機".toList ++ (codeElement markedComputerBlock ++ [])

theorem edits_computerPage :
    Dialect.standard.edits computerPage .cn = (GlobalRule.add computerRule).edits .cn := by
  have hblock := Page.globalRules_block (s := "</code>".toList ++ []) unmarked_computerBlock (by decide)
    globalRule?_computerBlock .cn
  have hrules : Page.globalRules computerPage .cn = [.add computerRule] := by
    unfold computerPage
    rw [codeElement_eq]
    rw [Page.globalRules_append (.of_not_isInfix (by decide) (by simp)), List.append_assoc,
      List.append_assoc, Page.globalRules_append (.of_not_mem (by decide) _)]
    exact hblock
  change Page.edits (Page.globalRules computerPage .cn) .cn = _
  rw [hrules, Page.edits, List.flatMap_singleton]

theorem convertUnder_computer :
    (ofPairs .cn []).convertUnder ((GlobalRule.add computerRule).edits .cn) "計算機".toList =
      "电脑".toList := by
  rw [convertUnder_of_not_mem _ (by decide) (by decide), plainUnder,
    if_neg (GlobalRule.not_isEmpty_ofEdits_add add_mem_edits_computerRule),
    convertWith_own_word add_mem_edits_computerRule]
  rfl

/-- The word before the region becomes what the rule in the region says. -/
theorem text_convertMarkup_codeElement_computer :
    ((ofPairs .cn []).convertMarkup .extended computerPage).text =
      "电脑".toList ++ codeElement markedComputerBlock := by
  have hpage := ((ofPairs .cn []).text_convertMarkup_codeElement (a := "計算機".toList)
    (x := markedComputerBlock) (by decide) (by decide) (by decide) []).1
  change ((ofPairs .cn []).convertMarkup .extended computerPage).text =
    (ofPairs .cn []).convertUnder (Dialect.standard.edits computerPage .cn) _ ++ _ ++ _ at hpage
  rwa [edits_computerPage, convertUnder_computer, convertUnder_nil, List.append_nil] at hpage

/-- What stands in a region does not leave the rest of a page as it is: with the block in the region
the word before it becomes another, and without the block it stays. -/
theorem not_forall_code_content :
    ¬ ∀ (c : Converter) (a b x y : Text), ¬ Mark.opening.text <:+: a → '<' ∉ a →
      ¬ "</code>".toList <:+: x → ¬ "</code>".toList <:+: y →
      ∃ before after,
        (c.convertMarkup .extended (a ++ (codeElement x ++ b))).text = before ++ codeElement x ++ after ∧
        (c.convertMarkup .extended (a ++ (codeElement y ++ b))).text = before ++ codeElement y ++ after := by
  intro h
  let c := ofPairs .cn []
  have ha : ¬ Mark.opening.text <:+: "計算機".toList := by decide
  have ha' : '<' ∉ "計算機".toList := by decide
  obtain ⟨before, after, hx, hy⟩ := h c "計算機".toList [] markedComputerBlock [] ha ha'
    (by decide) (by decide)
  have hrule : (c.convertMarkup .extended computerPage).text =
      "电脑".toList ++ codeElement markedComputerBlock ++ [] := by
    rw [text_convertMarkup_extended, show c.variant = .cn from rfl, edits_computerPage]
    unfold computerPage
    rw [convertUnder_codeElement _ ha ha' (by decide), convertUnder_computer, convertUnder_nil]
  have hplain : (c.convertMarkup .extended ("計算機".toList ++ (codeElement [] ++ []))).text =
      "計算機".toList ++ codeElement [] ++ [] := by
    have hedits : Dialect.standard.edits ("計算機".toList ++ (codeElement [] ++ [])) .cn = [] := by
      rw [edits_codeElement ha (by decide)]
      change Page.edits (Page.globalRules [] .cn) .cn = []
      rw [Page.globalRules, Page.scan_outside, cutOutside?_nil]
      rfl
    rw [text_convertMarkup_extended, show c.variant = .cn from rfl, hedits,
      convertUnder_codeElement _ ha ha' (by decide), convertUnder_nil, convertUnder_of_not_mem _ ha ha']
    exact congrArg (· ++ codeElement [] ++ []) (convert_ofPairs_nil .cn _)
  -- both results begin with the same character, be it that of `before` or of the region
  have hhead := (congrArg List.head? (hrule.symm.trans hx)).trans
    (show _ = (before ++ codeElement [] ++ after).head? by cases before <;> rfl)
  rw [← hy, hplain] at hhead
  exact absurd hhead (by decide)

end Converter

end HanVariants
