import HanVariants.Proofs.Converter
import HanVariants.Proofs.Markup.Nesting
/-!
# What a conversion keeps

Every character of a text with blocks is in the result once and in its place, be it as it stands, in
what a word becomes, or in what a block shows. So where no word is replaced and each block shows just
what was written, a conversion changes nothing (`convertMarkup_literal`). What a conversion gives and
what it tells of blocks are both those of its reading (`text_convertMarkup`, `filterMap_notices`).
-/

namespace HanVariants

namespace Converter

open Markup

theorem text_convertMarkup (c : Converter) (options : Options) (t : Text) :
    (c.convertMarkup options t).text =
      (outside (Markup.plain c (overlay? options c.variant t)) (options.dialect.render · c.variant)
        options.protect [] t).text :=
  congrArg Value.text (Reading.value_read_outside (c.plain_nil _) 0 t)

/-- The notices of a conversion that are not about blocks come before those of its reading. -/
theorem filterMap_notices {α : Type} {f : Notice → Option α}
    (hf : ∀ adds removes, f (.globalRules adds removes) = none) (c : Converter) (options : Options)
    (t : Text) :
    (c.convertMarkup options t).notices.filterMap f =
      (Reading.ofText (options.dialect.render · c.variant) options.protect t).events.filterMap
        (f ∘ .reading) := by
  have hbefore : ((overlay? options c.variant t).map fun o =>
      Notice.globalRules o.adds.size o.suppressed.length).toList.filterMap f = [] := by
    cases overlay? options c.variant t with
    | none => rfl
    | some o => simp [hf]
  rw [convertMarkup, List.filterMap_append, hbefore, List.nil_append, List.filterMap_map]

end Converter

namespace Markup

/-! ## Blocks shown as they are written -/

/-- Blocks show what was written, and no page makes edits. -/
def Dialect.literal : Dialect where
  render t _ := Mark.opening.text ++ t ++ Mark.closing.text
  edits _ _ := []

namespace Body

/-- A body with its closing mark, if it has one. -/
def written (b : Body) : Text := if b.closed then b.text ++ Mark.closing.text else b.text

theorem written_prepend (u : Text) (ts : List Text) (n : Nat) (b : Body) :
    (b.prepend u ts n).written = u ++ b.written := by
  unfold written prepend
  cases b.closed <;> simp

theorem value_literal (v : Variant) (b : Body) :
    b.value (Dialect.literal.render · v) = Mark.opening.text ++ b.written := by
  unfold value written Dialect.literal
  cases b.closed <;> simp [Mark.text]

/-- Where `u` is what was read of a text, and the body is what is written after it, both together
are. -/
theorem written_prepend_append {u : Text} {ts : List Text} {n : Nat} {b : Body} {t : Text}
    (hu : u ++ t.drop n = t) (hb : b.written ++ (t.drop n).drop b.length = t.drop n) :
    (b.prepend u ts n).written ++ t.drop (b.prepend u ts n).length = t := by
  have hlength : (b.prepend u ts n).length = n + b.length := rfl
  rw [written_prepend, hlength, ← List.drop_drop, List.append_assoc, hb, hu]

end Body

theorem written_body (v : Variant) (depth : Nat) (t : Text) :
    (body (Dialect.literal.render · v) depth t).written ++
      t.drop (body (Dialect.literal.render · v) depth t).length = t := by
  fun_induction body (Dialect.literal.render · v) depth t with
  | case1 => rfl
  | case2 => rfl
  | case3 depth t hd b ih ih' =>
    -- the block inside is written where it stands, and the rest of the body after it
    have hdrop : ('-' :: '{' :: t).drop (2 + b.length) = t.drop b.length := by
      rw [Nat.add_comm]
      rfl
    have hvalue : b.value (Dialect.literal.render · v) ++ t.drop b.length = '-' :: '{' :: t := by
      rw [Body.value_literal, List.append_assoc, ih]
      rfl
    exact Body.written_prepend_append (hdrop ▸ hvalue) (hdrop ▸ ih')
  | case4 depth t hd ih => exact Body.written_prepend_append rfl ih
  | case5 depth c t _ _ ih => exact Body.written_prepend_append rfl ih

theorem isPrefix_of_protected? {protect : Bool} {t r : Text} (h : protected? protect t = some r) :
    r <+: t := by
  cases protect with
  | false => cases h
  | true => exact isPrefix_of_region? h

theorem text_outside_literal (v : Variant) {plain : Text → Text} (hplain : ∀ t, plain t = t)
    (protect : Bool) (before t : Text) :
    (outside plain (Dialect.literal.render · v) protect before t).text = before ++ t := by
  fun_induction outside plain (Dialect.literal.render · v) protect before t with
  | case1 before => rw [hplain, List.append_nil]
  | case2 before t b ih =>
    have hbody : b.written ++ t.drop b.length = t := written_body v 1 t
    rw [Value.prepend, ih, hplain, Body.value_literal, List.nil_append, List.append_assoc,
      List.append_assoc, hbody]
    rfl
  | case3 before c t ho region hr ih =>
    obtain ⟨rest, hrest⟩ := isPrefix_of_protected? hr
    rw [Value.prepend, ih, hplain, ← hrest, List.drop_left, List.nil_append, List.append_assoc]
  | case4 before c t ho hr ih => rw [ih, List.append_assoc, List.singleton_append]

end Markup

namespace Converter

open Markup

theorem convert_ofPairs_nil (v : Variant) (t : Text) : (ofPairs v []).convert t = t := by
  rw [convert_eq_rewriteBy (Automaton.reads_ofPairs []) t]
  refine rewriteBy_of_none (fun t => Dictionary.longest?_eq_none_iff.2 fun w _ => ?_) t
  exact ite_self none

/-- A converter without words gives a text back whose blocks show what was written, whatever is
protected and at any depth: no character is lost, doubled or moved. -/
theorem convertMarkup_literal (v : Variant) (protect globalRules : Bool) (accepts : Notice → Bool)
    (t : Text) :
    ((ofPairs v []).convertMarkup { protect, globalRules, dialect := .literal, accepts } t).text = t := by
  have hplain : ∀ u, Markup.plain (ofPairs v [])
      (overlay? { protect, globalRules, dialect := .literal, accepts } v t) u = u := by
    cases globalRules with
    | false => exact convert_ofPairs_nil v
    | true => exact convert_ofPairs_nil v
  rw [text_convertMarkup]
  exact text_outside_literal v hplain protect [] t

end Converter

end HanVariants
