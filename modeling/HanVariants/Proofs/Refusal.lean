import HanVariants.Proofs.Markup.Edits
/-!
# What a builder refuses

A builder refuses nothing but a pair without a source. No text makes such a pair, neither the rules on
its lines nor those of a page, and no pair without a source is ever held (`text_calls_accepted`). A
rule that was not read from a text can have one. Its pairs are then taken up to that one, and all else
stays as it was (`refused_rule`).
-/

namespace HanVariants.Builder

/-! ## Texts are not refused -/

theorem accepted_of_mem_lineRequests {line : Text} {v : Variant} {r : Request}
    (h : r ∈ lineRequests v line) : r.accepted := by
  unfold lineRequests at h
  split at h
  · cases h
  · split at h
    · next rule hparse => exact accepted_of_filled (g := .add rule) (Rule.filled_of_parse hparse) h
    · cases h

theorem addLines_accepted (t : Text) (b : Builder) : (addLines t b).error? = none := by
  refine ((asks_each asks_addLine (Text.lines t)).error? b).2 fun r hr => ?_
  obtain ⟨line, -, hr⟩ := List.mem_flatMap.1 hr
  exact accepted_of_mem_lineRequests hr

/-- The global rules of a page are taken, for whatever variant the page was read. -/
theorem addGlobalRules_accepted (t : Text) (v : Variant) (b : Builder) :
    (addGlobalRules (Markup.Page.globalRules t v) b).error? = none := by
  refine ((asks_each asks_addGlobalRule _).error? b).2 fun r hr => ?_
  obtain ⟨g, hg, hr⟩ := List.mem_flatMap.1 hr
  exact accepted_of_filled (Markup.Page.filled_of_mem_globalRules hg) hr

/-! ## Nothing without a source is held -/

theorem Request.ne_nil_of_removed? {r : Request} (hr : r.accepted) {p : Text × Text}
    (h : r.removed? = some p) : p.1 ≠ [] := by
  cases r with
  | add source target => cases h
  | remove source target =>
    cases h
    exact of_decide_eq_true hr

/-- Of what calls ask for, only that is performed which is not refused. -/
theorem accepted_of_mem_performed {calls : List Call} {v : Variant} {r : Request}
    (h : r ∈ performed v calls) : r.accepted := by
  induction calls generalizing v with
  | nil => cases h
  | cons call calls ih =>
    rcases List.mem_append.1 h with h | h
    · exact List.mem_takeWhile_imp h
    · exact ih h

theorem nil_not_mem_keys {calls : List Call} {pair? : Request → Option (Text × Text)}
    (hp : ∀ r p, r.accepted → pair? r = some p → p.1 ≠ []) (v : Variant) :
    [] ∉ (OrderedMap.ofList ((performed v calls).filterMap pair?)).keys := by
  intro h
  obtain ⟨p, hmem, hnil⟩ := List.mem_map.1 h
  obtain ⟨r, hr, hpair⟩ := List.mem_filterMap.1 (OrderedMap.mem_ofList hmem)
  exact hp r p (accepted_of_mem_performed hr) hpair hnil

/-- Whatever calls were made, those that ended in an error included: no text is refused, be it read by
its lines or as a page, and neither the words added nor those removed have one that is empty. -/
theorem text_calls_accepted (calls : List Call) :
    let b := runAll {} calls
    (∀ t v, (b.run (.addLines t)).error? = none ∧ (b.run (.addPage t)).error? = none ∧
      (b.run (.addGlobalRules (Markup.Page.globalRules t v))).error? = none) ∧
    [] ∉ b.adds.keys ∧ [] ∉ b.removes.keys := by
  intro b
  refine ⟨fun t v => ⟨addLines_accepted t b, addGlobalRules_accepted t b.target b,
    addGlobalRules_accepted t v b⟩, ?_, ?_⟩
  · rw [adds_runAll]
    exact nil_not_mem_keys (fun _ _ hr h => Request.ne_nil_of_added? hr h) _
  · rw [removes_runAll]
    exact nil_not_mem_keys (fun _ _ hr h => Request.ne_nil_of_removed? hr h) _

/-! ## A rule is refused where a pair has no source -/

theorem applyAll_map_add (b : Builder) (ps : List (Text × Text)) :
    b.applyAll (ps.map fun p => .add p.1 p.2) = { b with adds := b.adds.insertMany ps } := by
  induction ps generalizing b with
  | nil => rfl
  | cons p ps ih => exact ih (b.apply (.add p.1 p.2))

theorem applyAll_map_remove (b : Builder) (ps : List (Text × Text)) :
    b.applyAll (ps.map fun p => .remove p.1 p.2) = { b with removes := b.removes.insertMany ps } := by
  induction ps generalizing b with
  | nil => rfl
  | cons p ps ih => exact ih (b.apply (.remove p.1 p.2))

/-- A rule without empty texts is taken whole. -/
theorem addRule_of_filled {r : Rule} (h : r.Filled) (b : Builder) :
    (addRule r b).error? = none ∧
      (addRule r b).builder = { b with adds := b.adds.insertMany (r.pairs b.target).toList } := by
  have hall : ∀ q ∈ globalRequests b.target (.add r), q.accepted := fun q hq =>
    accepted_of_filled (g := .add r) h hq
  refine ⟨((asks_addRule r).error? b).2 hall, ?_⟩
  rw [(asks_addRule r).builder, List.takeWhile_eq_self_iff.2 hall]
  exact applyAll_map_add b (r.pairs b.target).toList

section Pairs

variable {call : Builder → Outcome} {request : Text × Text → Request} {r : Rule} {b : Builder}

/-- Where a call asks for the pairs of a rule, it is refused just where one of them has no source. -/
theorem refused_iff (h : Asks call fun v => (r.pairs v).toList.map request)
    (ha : ∀ p, (request p).accepted = decide (p.1 ≠ [])) :
    (call b).error? = some .emptySource ↔ ∃ p ∈ (r.pairs b.target).toList, p.1 = [] := by
  have hnone : (call b).error? = none ↔ ∀ p ∈ (r.pairs b.target).toList, p.1 ≠ [] := by
    rw [h.error?, List.forall_mem_map]
    simp only [ha, decide_eq_true_eq]
  have hsome : (call b).error? = some .emptySource ↔ (call b).error? ≠ none := by
    rcases (call b).error? with _ | ⟨⟩ <;> simp
  rw [hsome, ne_eq, hnone]
  simp only [not_forall, not_not, exists_prop]

/-- The pairs of a rule that stand before one have other sources. -/
theorem ne_of_mem_before {before after : List (Text × Text)} {p : Text × Text} {v : Variant}
    (hp : (r.pairs v).toList = before ++ p :: after) : ∀ q ∈ before, q.1 ≠ p.1 := by
  have hkeys := r.nodup_keys_pairs v
  rw [OrderedMap.keys, hp, List.map_append, List.map_cons, List.nodup_append] at hkeys
  exact fun q hq => hkeys.2.2 q.1 (List.mem_map_of_mem hq) p.1 List.mem_cons_self

/-- A call that asks for the pairs of a rule does what it asks for before the pair that has no source. -/
theorem builder_of_refused (h : Asks call fun v => (r.pairs v).toList.map request)
    (ha : ∀ p, (request p).accepted = decide (p.1 ≠ [])) {before after : List (Text × Text)}
    {target : Text} (hp : (r.pairs b.target).toList = before ++ ([], target) :: after) :
    (call b).builder = b.applyAll (before.map request) := by
  have hbefore : ∀ q ∈ before.map request, q.accepted := by
    rw [List.forall_mem_map]
    intro p hmem
    rw [ha]
    exact decide_eq_true (ne_of_mem_before hp p hmem)
  have hrefused : ¬ (request ([], target)).accepted := by simp [ha]
  rw [h.builder, hp, List.map_append, List.takeWhile_append_of_pos hbefore, List.map_cons,
    List.takeWhile_cons_of_neg hrefused, List.append_nil]

end Pairs

/-- A rule is refused just where one of its pairs has no source. The pairs before that one are then
added or removed, and nothing else is changed. -/
theorem refused_rule (r : Rule) (b : Builder) :
    ((addRule r b).error? = some .emptySource ↔ ∃ p ∈ (r.pairs b.target).toList, p.1 = []) ∧
    ((removeRule r b).error? = some .emptySource ↔ ∃ p ∈ (r.pairs b.target).toList, p.1 = []) ∧
    ∀ before target after, (r.pairs b.target).toList = before ++ ([], target) :: after →
      (addRule r b).builder = { b with adds := b.adds.insertMany before } ∧
      (removeRule r b).builder = { b with removes := b.removes.insertMany before } := by
  refine ⟨refused_iff (asks_addRule r) fun _ => rfl, refused_iff (asks_removeRule r) fun _ => rfl, ?_⟩
  intro before target after hp
  constructor
  · rw [builder_of_refused (asks_addRule r) (fun _ => rfl) hp]
    exact applyAll_map_add b before
  · rw [builder_of_refused (asks_removeRule r) (fun _ => rfl) hp]
    exact applyAll_map_remove b before

/-- A rule that is refused is not without effect: the pairs before the one that has no source stay. -/
theorem not_forall_refused_rule_unchanged :
    ¬ ∀ (calls : List Call) (r : Rule),
      let b := runAll {} calls
      ((addRule r b).error?.isSome → (addRule r b).builder = b) ∧
        ((removeRule r b).error?.isSome → (removeRule r b).builder = b) := by
  intro h
  have hsame := (h [.setTarget .tw]
    { spellings := ⟨[(.cn, ['甲']), (.hk, []), (.tw, ['乙'])]⟩ }).1 (by decide)
  exact absurd (congrArg (·.adds.size) hsame) (by decide)

end HanVariants.Builder
