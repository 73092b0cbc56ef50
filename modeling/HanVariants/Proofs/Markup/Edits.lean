import HanVariants.Proofs.Builder
import HanVariants.Proofs.Markup.Page
import HanVariants.Proofs.Rule.Items
/-!
# The edits of a page, taken in two ways

A builder takes the global rules of a page by requests for their word pairs, and refuses a pair
without a source. A conversion takes them as edits, from which such pairs are left out. The edits are
the accepted requests (`edits_eq_filter_accepted`), and a page asks for nothing else
(`accepted_of_mem_pageRequests`), since every rule that is read has a source for each of its pairs. So
both ways load the same words (`addPage_eq_ofEdits`).
-/

namespace HanVariants

open Markup

/-! ## The rules of a page -/

namespace Markup

theorem Block.filled_of_globalRule? {t : Text} {g : GlobalRule}
    (h : (Block.parse t).globalRule? = some g) : g.rule.Filled := by
  obtain ⟨r, hr, hg⟩ := Option.bind_eq_some_iff.1 h
  have hparse : Rule.parse (Block.splitFlags t).2 = .ok r := by
    change (Rule.parse (Block.splitFlags t).2).toOption = some r at hr
    cases he : Rule.parse (Block.splitFlags t).2 with
    | error e =>
      rw [he] at hr
      cases hr
    | ok r' =>
      rw [he] at hr
      exact congrArg Except.ok (Option.some.inj hr)
  have hrule : g.rule = r := by
    split at hg
    · cases hg
      rfl
    · split at hg
      · cases hg
        rfl
      · cases hg
  rw [hrule]
  exact Rule.filled_of_parse hparse

/-- Whatever the nesting, a global rule of a page is that of a block that was read. -/
theorem Page.filled_of_mem_globalRules {t : Text} {v : Variant} {g : GlobalRule}
    (h : g ∈ Page.globalRules t v) : g.rule.Filled := by
  unfold Page.globalRules at h
  rw [← List.map_nil (f := Frame.text), Page.scan_eq_filterMap_events v 0 [] t] at h
  obtain ⟨e, -, he⟩ := List.mem_filterMap.1 h
  cases e with
  | block start stop depth inner shown => exact Block.filled_of_globalRule? he
  | unterminated start stop depth => cases he

end Markup

/-! ## Requests and edits -/

namespace Builder

namespace Request

/-- The edit that does what is requested. -/
def edit : Request → Edit
  | add source target => .add source target
  | remove source _ => .remove source

variable {r : Request}

theorem ne_nil_of_added? (hr : r.accepted) {p : Text × Text} (h : r.added? = some p) : p.1 ≠ [] := by
  cases r with
  | add source target =>
    cases h
    exact of_decide_eq_true hr
  | remove source target => cases h

theorem ne_nil_of_edit_eq_remove (hr : r.accepted) {w : Text} (h : r.edit = .remove w) : w ≠ [] := by
  cases r with
  | add source target => cases h
  | remove source target =>
    cases h
    exact of_decide_eq_true hr

end Request

/-- The edits of a global rule are its requests, without those that a builder refuses. -/
theorem edits_eq_filter_accepted (g : GlobalRule) (v : Variant) :
    g.edits v = ((globalRequests v g).filter Request.accepted).map Request.edit := by
  cases g with
  | add r =>
    unfold GlobalRule.edits globalRequests
    rw [List.filter_map, List.map_map]
    rfl
  | remove r =>
    unfold GlobalRule.edits globalRequests
    rw [List.filter_map, List.map_map]
    rfl

theorem accepted_of_filled {g : GlobalRule} (h : g.rule.Filled) {v : Variant} {r : Request}
    (hr : r ∈ globalRequests v g) : r.accepted := by
  cases g with
  | add rule =>
    obtain ⟨p, hp, rfl⟩ := List.mem_map.1 hr
    exact decide_eq_true (h.ne_nil_of_mem_pairs hp)
  | remove rule =>
    obtain ⟨p, hp, rfl⟩ := List.mem_map.1 hr
    exact decide_eq_true (h.ne_nil_of_mem_pairs hp)

/-- What a page asks for. -/
def pageRequests (t : Text) (v : Variant) : List Request :=
  (Page.globalRules t v).flatMap (globalRequests v)

theorem accepted_of_mem_pageRequests {t : Text} {v : Variant} {r : Request} (h : r ∈ pageRequests t v) :
    r.accepted := by
  obtain ⟨g, hg, hr⟩ := List.mem_flatMap.1 h
  exact accepted_of_filled (Page.filled_of_mem_globalRules hg) hr

theorem edits_page (t : Text) (v : Variant) :
    Dialect.standard.edits t v = (pageRequests t v).map Request.edit := by
  have hall : ∀ g ∈ Page.globalRules t v, g.edits v = (globalRequests v g).map Request.edit := by
    intro g hg
    rw [edits_eq_filter_accepted, List.filter_eq_self.2]
    intro r hr
    exact accepted_of_filled (Page.filled_of_mem_globalRules hg) hr
  unfold pageRequests
  rw [List.map_flatMap]
  exact List.flatMap_congr hall

/-- A page is taken without an error: all that it asks for is done. -/
theorem addPage_spec (t : Text) (b : Builder) :
    (addPage t b).error? = none ∧ (addPage t b).builder = b.applyAll (pageRequests t b.target) := by
  have hasks := asks_each asks_addGlobalRule (Page.globalRules t b.target)
  have hall : ∀ r ∈ pageRequests t b.target, r.accepted := fun r hr => accepted_of_mem_pageRequests hr
  constructor
  · exact (hasks.error? b).2 hall
  · refine (hasks.builder b).trans ?_
    exact congrArg b.applyAll (List.takeWhile_eq_self_iff.2 hall)

/-! ## The words loaded -/

theorem filterMap_added?_edit (rs : List Request) :
    (rs.map Request.edit).filterMap Edit.added? = rs.filterMap Request.added? := by
  rw [List.filterMap_map]
  congr 1
  funext r
  cases r <;> rfl

theorem remove_mem_map_edit {rs : List Request} {w : Text} :
    .remove w ∈ rs.map Request.edit ↔ w ∈ (rs.filterMap Request.removed?).map (·.1) := by
  simp only [List.mem_map, List.mem_filterMap]
  constructor
  · rintro ⟨r, hr, he⟩
    cases r with
    | add source target => cases he
    | remove source target =>
      cases he
      exact ⟨(w, target), ⟨_, hr, rfl⟩, rfl⟩
  · rintro ⟨p, ⟨r, hr, he⟩, rfl⟩
    cases r with
    | add source target => cases he
    | remove source target =>
      cases he
      exact ⟨_, hr, rfl⟩

/-- A builder that takes a page and an overlay made for it hold the same words: those added with the
same targets, and those removed. -/
theorem addPage_eq_ofEdits (t : Text) (v : Variant) :
    let o := (({} : Builder).setTarget v).addPage t
    let overlay := Overlay.ofEdits (Dialect.standard.edits t v)
    o.error? = none ∧ o.builder.adds = overlay.adds ∧
      ∀ w, (o.builder.removes.get? w).isSome ↔ w ∈ overlay.suppressed := by
  intro o overlay
  obtain ⟨herror, hbuilder⟩ := addPage_spec t (({} : Builder).setTarget v)
  have hadds : o.builder.adds = .ofList ((pageRequests t v).filterMap Request.added?) := by
    rw [hbuilder, collects_adds.applyAll]
    rfl
  have hremoves : o.builder.removes = .ofList ((pageRequests t v).filterMap Request.removed?) := by
    rw [hbuilder, collects_removes.applyAll]
    rfl
  refine ⟨herror, ?_, fun w => ?_⟩
  · rw [hadds]
    change _ = Overlay.addsOf (Dialect.standard.edits t v)
    rw [Overlay.addsOf_eq_ofList, edits_page, filterMap_added?_edit, List.filter_eq_self.2]
    intro p hp
    obtain ⟨r, hr, he⟩ := List.mem_filterMap.1 hp
    exact decide_eq_true (Request.ne_nil_of_added? (accepted_of_mem_pageRequests hr) he)
  · rw [hremoves, OrderedMap.isSome_get?_ofList, ← remove_mem_map_edit, ← edits_page,
      Overlay.mem_suppressed_ofEdits]
    refine ⟨fun h => ⟨?_, h⟩, fun h => h.2⟩
    rw [edits_page] at h
    obtain ⟨r, hr, he⟩ := List.mem_map.1 h
    exact Request.ne_nil_of_edit_eq_remove (accepted_of_mem_pageRequests hr) he

end Builder

end HanVariants
