import HanVariants.Builder
import HanVariants.Proofs.Converter
import Mathlib.Data.List.TakeWhile
/-!
# What a built converter replaces

Whatever it is called, a call asks for pairs to be added or removed, one after the other, and what it
leaves behind are those before the first refused pair (`Asks`). So the builder after any calls holds
what was asked for (`run_eq`, `adds_runAll`, `removes_runAll`). Building fails just where columns of a
table do not match; else the converter replaces the words of `Builder.dictionary`, in which pairs
added win over tables, a later table over an earlier one, and words removed over everything.
-/

namespace HanVariants

/-! ## Tables -/

namespace Table

/-- The columns of a table match. -/
def Aligned : Table → Prop
  | pairs _ => True
  | columns sources targets => sources.toList.length = targets.toList.length

/-- What stands in the rows of a table. -/
def entries : Table → List (Text × Text)
  | pairs entries => entries
  | columns sources targets => sources.toList.zip targets.toList

theorem expand_of_aligned {t : Table} (h : t.Aligned) : t.expand = .ok t.entries := by
  cases t with
  | pairs entries => rfl
  | columns sources targets => exact if_pos h

theorem expand_of_not_aligned {t : Table} (h : ¬ t.Aligned) : ∃ e, t.expand = .error e := by
  cases t with
  | pairs entries => exact absurd trivial h
  | columns sources targets => exact ⟨_, if_neg h⟩

theorem mapM_expand_of_aligned {ts : List Table} (h : ∀ t ∈ ts, t.Aligned) :
    ts.mapM expand = .ok (ts.map entries) := by
  induction ts with
  | nil => rfl
  | cons t ts ih =>
    obtain ⟨ht, hts⟩ := List.forall_mem_cons.1 h
    rw [List.mapM_cons, expand_of_aligned ht, ih hts]
    rfl

theorem mapM_expand_of_not_aligned {ts : List Table} (h : ∃ t ∈ ts, ¬ t.Aligned) :
    ∃ e, ts.mapM expand = .error e := by
  induction ts with
  | nil => simp at h
  | cons t ts ih =>
    rw [List.mapM_cons]
    by_cases ht : t.Aligned
    · obtain ⟨e, he⟩ := ih (by simpa [ht] using h)
      rw [expand_of_aligned ht, he]
      exact ⟨e, rfl⟩
    · obtain ⟨e, he⟩ := expand_of_not_aligned ht
      rw [he]
      exact ⟨e, rfl⟩

theorem not_aligned_iff {t : Table} :
    ¬ t.Aligned ↔ ∃ sources targets, t = columns sources targets ∧
      sources.toList.length ≠ targets.toList.length := by
  cases t with
  | pairs entries => simp [Aligned]
  | columns sources targets => simp [Aligned]

/-- Of all rows of a source the last one counts, and so the last table that has the source. -/
theorem last?_flatten_entries (s : Text) (ts : List Table) :
    OrderedMap.last? s (ts.map entries).flatten =
      ts.reverse.findSome? fun t => OrderedMap.last? s t.entries := by
  induction ts with
  | nil => rfl
  | cons t ts ih =>
    rw [List.map_cons, List.flatten_cons, OrderedMap.last?_append, ih, List.reverse_cons,
      List.findSome?_append, List.findSome?_singleton]

end Table

namespace Builder

/-! ## What calls ask for -/

/-- A pair that is to be added or removed. -/
inductive Request where
  | add (source target : Text)
  | remove (source target : Text)

namespace Request

/-- A pair without a source is refused. -/
def accepted : Request → Bool
  | add source _ | remove source _ => source ≠ []

def added? : Request → Option (Text × Text)
  | add source target => some (source, target)
  | remove _ _ => none

def removed? : Request → Option (Text × Text)
  | add _ _ => none
  | remove source target => some (source, target)

end Request

/-- Does what is requested. -/
def apply (b : Builder) : Request → Builder
  | .add source target => { b with adds := b.adds.insert source target }
  | .remove source target => { b with removes := b.removes.insert source target }

def applyAll (b : Builder) (rs : List Request) : Builder := rs.foldl apply b

/-- The requests of a global rule. -/
def globalRequests (v : Variant) : GlobalRule → List Request
  | .add r => (r.pairs v).toList.map fun p => .add p.1 p.2
  | .remove r => (r.pairs v).toList.map fun p => .remove p.1 p.2

/-- The requests of a line; one that is no rule asks for nothing. -/
def lineRequests (v : Variant) (line : Text) : List Request :=
  if Text.strip line = [] then []
  else match Rule.parse (Text.strip line) with
    | .ok r => globalRequests v (.add r)
    | .error _ => []

namespace Call

/-- What a call asks for, for the target that holds when it is made. -/
def requests (v : Variant) : Call → List Request
  | setTarget _ | addTable _ | addTables _ => []
  | addPair source target => [.add source target]
  | removePair source target => [.remove source target]
  | addRule r => globalRequests v (.add r)
  | removeRule r => globalRequests v (.remove r)
  | addLines t => (Text.lines t).flatMap (lineRequests v)
  | addGlobalRules rules => rules.flatMap (globalRequests v)
  | addPage t => (Markup.Page.globalRules t v).flatMap (globalRequests v)

/-- The tables that a call gives. -/
def tables : Call → List Table
  | addTable t => [t]
  | addTables ts => ts
  | _ => []

/-- The target after a call. -/
def target (v : Variant) : Call → Variant
  | setTarget v' => v'
  | _ => v

end Call

/-- What is performed for calls made one after the other, the first of them for the target `v`: of each
call, what it asks for before the first refused pair. -/
def performed (v : Variant) : List Call → List Request
  | [] => []
  | call :: calls => (call.requests v).takeWhile Request.accepted ++ performed (call.target v) calls

/-! ## One call -/

section Apply

variable (b : Builder) (rs : List Request)

theorem applyAll_append (rs' : List Request) :
    b.applyAll (rs ++ rs') = (b.applyAll rs).applyAll rs' := List.foldl_append

/-- What no request touches stays. -/
theorem applyAll_untouched {β : Type} {f : Builder → β} (hf : ∀ b r, f (apply b r) = f b) :
    f (b.applyAll rs) = f b := by
  induction rs generalizing b with
  | nil => rfl
  | cons r rs ih => exact (ih (b.apply r)).trans (hf b r)

theorem target_applyAll : (b.applyAll rs).target = b.target :=
  applyAll_untouched b rs fun _ r => by cases r <;> rfl

theorem tables_applyAll : (b.applyAll rs).tables = b.tables :=
  applyAll_untouched b rs fun _ r => by cases r <;> rfl

end Apply

/-- A map of the builder in which nothing but the pairs of some requests is put. -/
structure Collects (m : Builder → OrderedMap Text Text) (pair? : Request → Option (Text × Text)) : Prop where
  apply : ∀ b r, m (apply b r) = (m b).insertMany (pair? r).toList
  target_tables : ∀ b target tables, m { b with target, tables } = m b

theorem collects_adds : Collects adds Request.added? where
  apply _ r := by cases r <;> rfl
  target_tables _ _ _ := rfl

theorem collects_removes : Collects removes Request.removed? where
  apply _ r := by cases r <;> rfl
  target_tables _ _ _ := rfl

theorem Collects.applyAll {m : Builder → OrderedMap Text Text} {pair? : Request → Option (Text × Text)}
    (h : Collects m pair?) (b : Builder) (rs : List Request) :
    m (b.applyAll rs) = (m b).insertMany (rs.filterMap pair?) := by
  induction rs generalizing b with
  | nil => rfl
  | cons r rs ih =>
    refine (ih (b.apply r)).trans ?_
    rw [h.apply, ← OrderedMap.insertMany_append]
    cases hr : pair? r with
    | none => rw [List.filterMap_cons_none hr]; rfl
    | some p => rw [List.filterMap_cons_some hr]; rfl

/-- A call does what it asks for, up to the first refused pair, where it ends in an error. -/
structure Asks (call : Builder → Outcome) (requests : Variant → List Request) : Prop where
  builder : ∀ b, (call b).builder = b.applyAll ((requests b.target).takeWhile Request.accepted)
  error? : ∀ b, (call b).error? = none ↔ ∀ r ∈ requests b.target, r.accepted

theorem asks_nothing : Asks (fun b => { builder := b }) fun _ => [] where
  builder _ := rfl
  error? := by simp

theorem asks_addPair (source target : Text) :
    Asks (addPair source target) fun _ => [.add source target] := by
  constructor <;> intro b <;> by_cases h : source = [] <;>
    simp [addPair, h, Request.accepted, applyAll, apply]

theorem asks_removePair (source target : Text) :
    Asks (removePair source target) fun _ => [.remove source target] := by
  constructor <;> intro b <;> by_cases h : source = [] <;>
    simp [removePair, h, Request.accepted, applyAll, apply]

theorem takeWhile_append_of_refused {p : Request → Bool} {rs : List Request} (h : ¬ ∀ r ∈ rs, p r)
    (rs' : List Request) : (rs ++ rs').takeWhile p = rs.takeWhile p := by
  induction rs with
  | nil => exact absurd (by simp) h
  | cons r rs ih =>
    rw [List.cons_append, List.takeWhile_cons, List.takeWhile_cons]
    split
    · next hr => rw [ih fun hrs => h (List.forall_mem_cons.2 ⟨hr, hrs⟩)]
    · rfl

/-- Calls made one by one ask for what each of them asks for. -/
theorem asks_each {α : Type} {call : α → Builder → Outcome} {requests : Variant → α → List Request}
    (h : ∀ x, Asks (call x) fun v => requests v x) (xs : List α) :
    Asks (each call xs) fun v => xs.flatMap (requests v) := by
  induction xs with
  | nil => exact asks_nothing
  | cons x xs ih =>
    have goes : ∀ b, (call x b).error? = none → each call (x :: xs) b =
        { each call xs (call x b).builder with
          journal := (call x b).journal ++ (each call xs (call x b).builder).journal } := by
      intro b he
      rw [each, Outcome.andThen, he]
    have ends : ∀ b e, (call x b).error? = some e → each call (x :: xs) b = call x b := by
      intro b e he
      rw [each, Outcome.andThen, he]
    constructor
    · intro b
      rw [List.flatMap_cons]
      cases he : (call x b).error? with
      | none =>
        -- all that the first call asks for is accepted, and the others go on from there
        have hall := ((h x).error? b).1 he
        rw [goes b he, List.takeWhile_append_of_pos hall, applyAll_append]
        have hb := (h x).builder b
        rw [List.takeWhile_eq_self_iff.2 hall] at hb
        rw [ih.builder, hb, target_applyAll]
      | some e =>
        -- what is asked for after the first refused pair counts for nothing
        have hnot : ¬ ∀ r ∈ requests b.target x, r.accepted = true := by
          rw [← (h x).error? b, he]
          exact Option.some_ne_none e
        rw [ends b e he, takeWhile_append_of_refused hnot, (h x).builder]
    · intro b
      rw [List.flatMap_cons, List.forall_mem_append, ← (h x).error? b]
      cases he : (call x b).error? with
      | none =>
        rw [goes b he]
        simp only [true_and]
        rw [ih.error?, (h x).builder, target_applyAll]
      | some e => rw [ends b e he, he]; simp

/-- The pairs of a rule are those for the target that holds. -/
theorem asks_pairs {call : Text → Text → Builder → Outcome} {request : Text → Text → Request}
    (h : ∀ source target, Asks (call source target) fun _ => [request source target]) (r : Rule) :
    Asks (fun b => each (fun (source, target) => call source target) (r.pairs b.target).toList b)
      fun v => (r.pairs v).toList.map fun p => request p.1 p.2 := by
  have heach := fun b : Builder =>
    asks_each (fun p : Text × Text => h p.1 p.2) (r.pairs b.target).toList
  simp only [← List.map_eq_flatMap] at heach
  constructor
  · intro b
    exact (heach b).builder b
  · intro b
    exact (heach b).error? b

theorem asks_addRule (r : Rule) : Asks (addRule r) fun v => globalRequests v (.add r) :=
  asks_pairs asks_addPair r

theorem asks_removeRule (r : Rule) : Asks (removeRule r) fun v => globalRequests v (.remove r) :=
  asks_pairs asks_removePair r

theorem asks_addGlobalRule (rule : GlobalRule) :
    Asks (addGlobalRule rule) fun v => globalRequests v rule := by
  cases rule with
  | add r => exact asks_addRule r
  | remove r => exact asks_removeRule r

theorem asks_addLine (line : Text) : Asks (addLine line) fun v => lineRequests v line := by
  unfold addLine lineRequests
  by_cases hl : Text.strip line = []
  · simp only [hl, if_true]
    exact asks_nothing
  · simp only [hl, if_false]
    cases Rule.parse (Text.strip line) with
    | ok r => exact asks_addRule r
    | error e => exact ⟨fun b => rfl, by simp⟩

/-- What the builder is after a call. -/
theorem run_eq (b : Builder) (call : Call) :
    (b.run call).builder =
      { b with target := call.target b.target, tables := b.tables ++ call.tables }.applyAll
        ((call.requests b.target).takeWhile Request.accepted) := by
  have keeps : { b with target := b.target, tables := b.tables ++ [] } = b := by
    rw [List.append_nil]
  cases call with
  | setTarget v => simp [run, Call.requests, Call.target, Call.tables, setTarget, applyAll]
  | addTable t => rfl
  | addTables ts => rfl
  | addPair source target => exact keeps.symm ▸ (asks_addPair source target).builder b
  | removePair source target => exact keeps.symm ▸ (asks_removePair source target).builder b
  | addRule r => exact keeps.symm ▸ (asks_addRule r).builder b
  | removeRule r => exact keeps.symm ▸ (asks_removeRule r).builder b
  | addLines t => exact keeps.symm ▸ (asks_each asks_addLine (Text.lines t)).builder b
  | addGlobalRules rules => exact keeps.symm ▸ (asks_each asks_addGlobalRule rules).builder b
  | addPage t =>
    exact keeps.symm ▸ (asks_each asks_addGlobalRule (Markup.Page.globalRules t b.target)).builder b

/-! ## All calls -/

theorem tables_runAll (b : Builder) (calls : List Call) :
    (b.runAll calls).tables = b.tables ++ calls.flatMap Call.tables := by
  induction calls generalizing b with
  | nil => simp [runAll]
  | cons call calls ih =>
    refine (ih (b.run call).builder).trans ?_
    rw [run_eq, tables_applyAll, List.flatMap_cons, List.append_assoc]

theorem Collects.runAll {m : Builder → OrderedMap Text Text} {pair? : Request → Option (Text × Text)}
    (h : Collects m pair?) (b : Builder) (calls : List Call) :
    m (b.runAll calls) = (m b).insertMany ((performed b.target calls).filterMap pair?) := by
  induction calls generalizing b with
  | nil => rfl
  | cons call calls ih =>
    refine (ih (b.run call).builder).trans ?_
    rw [run_eq, h.applyAll, h.target_tables, target_applyAll, performed, List.filterMap_append,
      OrderedMap.insertMany_append]

/-- The pairs added by calls, in order. -/
def added (calls : List Call) : List (Text × Text) :=
  (performed ({} : Builder).target calls).filterMap Request.added?

/-- The pairs removed by calls, in order. -/
def removed (calls : List Call) : List (Text × Text) :=
  (performed ({} : Builder).target calls).filterMap Request.removed?

theorem adds_runAll (calls : List Call) : (runAll {} calls).adds = .ofList (added calls) :=
  collects_adds.runAll {} calls

theorem removes_runAll (calls : List Call) : (runAll {} calls).removes = .ofList (removed calls) :=
  collects_removes.runAll {} calls

/-! ## What is built -/

/-- The words that a builder's converter is to replace: none that was removed, those added, and of
the tables those of the last one that has the word. -/
def dictionary (b : Builder) : Dictionary Text where
  get? s :=
    if s = [] ∨ (b.removes.get? s).isSome then none
    else (b.adds.get? s).or (b.tables.reverse.findSome? fun t => OrderedMap.last? s t.entries)
  get?_nil := rfl

theorem pairs_of_aligned {b : Builder} (h : ∀ t ∈ b.tables, t.Aligned) :
    b.pairs = .ok (((b.tables.map Table.entries).flatten ++ b.adds.toList).filter
      fun p => (b.removes.get? p.1).isNone) := by
  rw [pairs, Table.mapM_expand_of_aligned h]
  rfl

theorem converter_of_not_aligned {b : Builder} (h : ∃ t ∈ b.tables, ¬ t.Aligned) :
    ∃ e, b.converter = .error e := by
  obtain ⟨e, he⟩ := Table.mapM_expand_of_not_aligned h
  refine ⟨e, ?_⟩
  rw [converter, pairs, he]
  rfl

theorem ofPairs_eq_dictionary {b : Builder} (h : b.adds.keys.Nodup) :
    Dictionary.ofPairs (((b.tables.map Table.entries).flatten ++ b.adds.toList).filter
      fun p => (b.removes.get? p.1).isNone) = b.dictionary := by
  ext s : 2
  have hadds : OrderedMap.last? s b.adds.toList = b.adds.get? s := (OrderedMap.lookup_eq_last? h s).symm
  rw [Dictionary.get?_ofPairs, OrderedMap.last?_filter (fun s => (b.removes.get? s).isNone),
    OrderedMap.last?_append, Table.last?_flatten_entries, hadds, dictionary]
  by_cases hs : s = []
  · simp [hs]
  · cases hr : b.removes.get? s with
    | none => simp [hs, hr]
    | some t => simp [hs, hr]

theorem converter_of_aligned {b : Builder} (ht : ∀ t ∈ b.tables, t.Aligned) (ha : b.adds.keys.Nodup) :
    ∃ c, b.converter = .ok c ∧ c.Replaces b.dictionary := by
  refine ⟨_, by rw [converter, pairs_of_aligned ht]; rfl, ?_⟩
  rw [← ofPairs_eq_dictionary ha]
  exact Converter.replaces_of_reads (Automaton.reads_ofPairs _)

theorem converter_eq_error_iff {b : Builder} (ha : b.adds.keys.Nodup) :
    (∃ e, b.converter = .error e) ↔ ∃ t ∈ b.tables, ¬ t.Aligned := by
  refine ⟨?_, converter_of_not_aligned⟩
  rintro ⟨e, he⟩
  by_contra hn
  obtain ⟨c, hc, -⟩ := converter_of_aligned (fun t ht => by_contra fun h => hn ⟨t, ht, h⟩) ha
  rw [he] at hc
  cases hc

/-- Whatever calls were made, those that ended in an error included: the builder holds what they
asked for, building fails just where the columns of a table held do not match, and else the converter
replaces the words of the builder's dictionary. -/
theorem build_runAll (calls : List Call) :
    let b := runAll {} calls
    (∀ s, b.adds.get? s = OrderedMap.last? s (added calls)) ∧
    (∀ s, (b.removes.get? s).isSome ↔ s ∈ (removed calls).map (·.1)) ∧
    b.tables = calls.flatMap Call.tables ∧
    ((∃ e, b.build.result = .error e) ↔ ∃ sources targets,
      .columns sources targets ∈ b.tables ∧ sources.toList.length ≠ targets.toList.length) ∧
    ∀ c, b.build.result = .ok c → c.Replaces b.dictionary := by
  intro b
  have hn : b.adds.keys.Nodup := by
    rw [adds_runAll]
    exact OrderedMap.nodup_keys_ofList _
  have herror : (∃ e, b.build.result = .error e) ↔ ∃ t ∈ b.tables, ¬ t.Aligned := converter_eq_error_iff hn
  refine ⟨fun s => ?_, fun s => ?_, tables_runAll {} calls, ?_, fun c hc => ?_⟩
  · rw [adds_runAll, OrderedMap.get?_ofList]
  · rw [removes_runAll, OrderedMap.get?_ofList, ← not_iff_not, ← OrderedMap.last?_eq_none_iff]
    simp
  · rw [herror]
    constructor
    · rintro ⟨t, ht, hna⟩
      obtain ⟨sources, targets, rfl, hne⟩ := Table.not_aligned_iff.1 hna
      exact ⟨sources, targets, ht, hne⟩
    · rintro ⟨sources, targets, ht, hne⟩
      exact ⟨_, ht, Table.not_aligned_iff.2 ⟨sources, targets, rfl, hne⟩⟩
  · have ht : ∀ t ∈ b.tables, t.Aligned := by
      intro t ht
      by_contra hna
      obtain ⟨e, he⟩ := herror.2 ⟨t, ht, hna⟩
      rw [he] at hc
      cases hc
    obtain ⟨c', hc', hr⟩ := converter_of_aligned ht hn
    rw [show b.build.result = .ok c' from hc'] at hc
    cases hc
    exact hr

end Builder

end HanVariants
