import HanVariants.Converter
import HanVariants.Proofs.Words.Search
/-!
# What a converter replaces

A converter rewrites a text the way reading it position by position does, with the longest word of
its dictionary taken at each position (`convert_eq_rewriteBy`). Under an overlay the words of the
edits are taken too (`Dictionary.picked?`). A conversion keeps the next hits of both automata across
its steps, and what it keeps is always what a new search would find (`lookAhead_search`), so that
every move follows the word picked at the position (`follows_nextMove`).
-/

namespace HanVariants

namespace Converter

theorem convert_eq_flatMap (c : Converter) (t : Text) :
    c.convert t = (c.automaton.segments t).flatMap Segment.result := rfl

theorem countMatched_eq_length (c : Converter) (t : Text) :
    c.countMatched t = ((c.automaton.segments t).flatMap Segment.replaced).length := by
  unfold countMatched
  congr 2
  funext s
  cases s <;> rfl

/-- A converter replaces just the words of a dictionary, the longest one at each position. -/
structure Replaces (c : Converter) (d : Dictionary Text) : Prop where
  size : ∃ words : List Text, words.Nodup ∧ (∀ w, w ∈ words ↔ (d.get? w).isSome) ∧ c.size = words.length
  convert : ∀ t, c.convert t = rewriteBy d.longest? t
  countMatched : ∀ t, c.countMatched t = coveredBy d.longest? t

variable {c : Converter} {d : Dictionary Text}

theorem convert_eq_rewriteBy (h : c.automaton.Reads d) (t : Text) :
    c.convert t = rewriteBy d.longest? t := by
  rw [convert_eq_flatMap, h.flatMap_segments Segment.result rfl (fun _ _ => rfl), rewriteBy]

theorem countMatched_eq_coveredBy (h : c.automaton.Reads d) (t : Text) :
    c.countMatched t = coveredBy d.longest? t := by
  rw [countMatched_eq_length, h.flatMap_segments Segment.replaced rfl (fun _ _ => rfl), coveredBy]

theorem replaces_of_reads (h : c.automaton.Reads d) : c.Replaces d where
  size := h.exists_words
  convert := convert_eq_rewriteBy h
  countMatched := countMatched_eq_coveredBy h

/-- A text that is a word itself is replaced as a whole. -/
theorem Replaces.convert_word (h : c.Replaces d) {w a : Text} (hw : d.get? w = some a) :
    c.convert w = a := by
  obtain ⟨e, he, rfl, rfl⟩ := Dictionary.longest?_self hw
  rw [h.convert, rewriteBy_of_some e.word_ne_nil he, List.drop_length, rewriteBy_nil, List.append_nil]

end Converter

namespace Automaton.Reads

variable {a : Automaton Text} {d : Dictionary Text}

/-! ## Hits seen later -/

/-- The next hit that is kept is the one that a new search would find. -/
theorem lookAhead_search (h : a.Reads d) (t : Text) (k : Nat) :
    Converter.lookAhead a (a.search t) k (t.drop k) = a.search (t.drop k) := by
  cases hs : a.search t with
  | none =>
    refine (h.search_eq_none_iff.2 fun g hg => ?_).symm
    obtain ⟨g', hg', -⟩ := hg.of_drop
    exact h.search_eq_none_iff.1 hs g' hg'
  | some b =>
    rw [Converter.lookAhead]
    split
    · next hk => exact (h.search_eq_some_iff.2 ((h.search_eq_some_iff.1 hs).after hk)).symm
    · rfl

end Automaton.Reads

/-! ## The word picked at a position -/

namespace Dictionary

/-- The word replaced at the start of a text under edits: the longest word added, unless the
dictionary has a shorter one; else the longest word of the dictionary, unless the word or what it
becomes is suppressed. -/
def picked? (base added : Dictionary Text) (suppressed : Text → Prop) [DecidablePred suppressed]
    (t : Text) : Option (Entry Text) :=
  let kept (b : Entry Text) := if suppressed b.word ∨ suppressed b.value then none else some b
  match added.longest? t, base.longest? t with
  | none, none => none
  | none, some b => kept b
  | some o, none => some o
  | some o, some b => if o.word.length ≤ b.word.length then some o else kept b

variable {base added : Dictionary Text} {suppressed : Text → Prop} [DecidablePred suppressed] {t : Text}

theorem picked?_of_none (hb : base.longest? t = none) (ha : added.longest? t = none) :
    picked? base added suppressed t = none := by
  rw [picked?, hb, ha]

theorem picked?_of_added {o : Entry Text} (ho : added.longest? t = some o)
    (h : ∀ b, base.longest? t = some b → o.word.length ≤ b.word.length) :
    picked? base added suppressed t = some o := by
  rw [picked?, ho]
  cases hb : base.longest? t with
  | none => rfl
  | some b => exact if_pos (h b hb)

theorem picked?_of_base {b : Entry Text} (hb : base.longest? t = some b)
    (h : ∀ o, added.longest? t = some o → b.word.length < o.word.length) :
    picked? base added suppressed t =
      if suppressed b.word ∨ suppressed b.value then none else some b := by
  rw [picked?, hb]
  cases ho : added.longest? t with
  | none => rfl
  | some o => exact if_neg (Nat.not_le.2 (h o ho))

end Dictionary

namespace Converter

/-! ## One move -/

/-- A move agrees with what is picked at each position it goes past. -/
def Move.Follows (pick : Text → Option (Entry Text)) (t : Text) : Move → Prop
  | .finish => ∀ p, pick (t.drop p) = none
  | .pass => pick t = none
  | .replace h => (∀ p < h.start, pick (t.drop p) = none) ∧
      ∃ e, pick (t.drop h.start) = some e ∧ e.value = h.value ∧ h.start + e.word.length = h.stop

theorem suppresses_iff {o : Overlay} {suppressed : Text → Prop}
    (hs : ∀ w, w ∈ o.suppressed ↔ suppressed w) (source target : Text) :
    o.suppresses source target = true ↔ suppressed source ∨ suppressed target := by
  rw [Overlay.suppresses, Bool.or_eq_true, List.contains_iff_mem, List.contains_iff_mem, hs, hs, or_comm]

section Overlay

variable {c : Converter} {o : Overlay} {base added : Dictionary Text}
variable {suppressed : Text → Prop} [DecidablePred suppressed] {t : Text}

/-- A word added that starts before the next word of the dictionary, or with it and is no longer. -/
theorem follows_added (hc : c.automaton.Reads base) (ho : o.automaton.Reads added) {h : Hit Text}
    (hs : o.automaton.search t = some h)
    (hb : ∀ b, c.automaton.search t = some b → overlayFirst h b) :
    (Move.replace h).Follows (base.picked? added suppressed) t := by
  have hf := ho.search_eq_some_iff.1 hs
  simp only [overlayFirst, Bool.or_eq_true, Bool.and_eq_true, decide_eq_true_eq, beq_iff_eq] at hb
  constructor
  · intro p hp
    apply Dictionary.picked?_of_none
    · apply hc.longest?_eq_none_of_search
      intro b hb'
      have := hb b hb'
      omega
    · exact hf.longest?_eq_none hp
  · obtain ⟨e, he, -, hv, hstop⟩ := hf.longest?
    refine ⟨e, Dictionary.picked?_of_added he fun b he' => ?_, hv, hstop⟩
    obtain ⟨b', hb', hle⟩ := hc.search_of_longest? he'
    have := hb b' hb'
    omega

/-- A word of the dictionary that starts before the next word added, or with it and is shorter. -/
theorem follows_takeBase (hc : c.automaton.Reads base) (ho : o.automaton.Reads added)
    (hsup : ∀ w, w ∈ o.suppressed ↔ suppressed w) {b : Hit Text} (hs : c.automaton.search t = some b)
    (hn : ∀ h, o.automaton.search t = some h → ¬ overlayFirst h b) :
    (takeBase o t b).Follows (base.picked? added suppressed) t := by
  have hf := hc.search_eq_some_iff.1 hs
  simp only [overlayFirst, Bool.or_eq_true, Bool.and_eq_true, decide_eq_true_eq, beq_iff_eq] at hn
  -- before the hit neither has a word
  have before : ∀ p < b.start, base.picked? added suppressed (t.drop p) = none := by
    intro p hp
    apply Dictionary.picked?_of_none
    · exact hf.longest?_eq_none hp
    · apply ho.longest?_eq_none_of_search
      intro h hh
      have := hn h hh
      omega
  obtain ⟨e, he, hw, hv, hstop⟩ := hf.longest?
  have at_hit : base.picked? added suppressed (t.drop b.start) =
      if suppressed e.word ∨ suppressed e.value then none else some e := by
    refine Dictionary.picked?_of_base he fun e' he' => ?_
    obtain ⟨h, hh, hle⟩ := ho.search_of_longest? he'
    have := hn h hh
    omega
  rw [takeBase, ← hw, ← hv]
  split
  · next hkept =>
    -- one character is copied, be it before the hit or its first one
    rw [if_pos ((suppresses_iff hsup _ _).1 hkept)] at at_hit
    rcases Nat.eq_zero_or_pos b.start with hz | hpos
    · rw [hz] at at_hit
      exact at_hit
    · exact before 0 hpos
  · next hkept =>
    rw [if_neg fun h => hkept ((suppresses_iff hsup _ _).2 h)] at at_hit
    exact ⟨before, e, at_hit, hv, hstop⟩

theorem follows_nextMove (hc : c.automaton.Reads base) (ho : o.automaton.Reads added)
    (hsup : ∀ w, w ∈ o.suppressed ↔ suppressed w) (t : Text) :
    (nextMove o t (c.automaton.search t) (o.automaton.search t)).Follows
      (base.picked? added suppressed) t := by
  cases hb : c.automaton.search t with
  | none =>
    cases hs : o.automaton.search t with
    | none =>
      intro p
      apply Dictionary.picked?_of_none
      · exact hc.longest?_eq_none_of_search (by simp [hb])
      · exact ho.longest?_eq_none_of_search (by simp [hs])
    | some h => exact follows_added hc ho hs (by simp [hb])
  | some b =>
    cases hs : o.automaton.search t with
    | none => exact follows_takeBase hc ho hsup hb (by simp [hs])
    | some h =>
      rw [nextMove]
      split
      · next hfirst => exact follows_added hc ho hs (by simpa [hb] using hfirst)
      · next hfirst => exact follows_takeBase hc ho hsup hb (by simpa [hs] using hfirst)

/-! ## A whole text -/

/-- Moves that follow what is picked give the rewriting of the text. -/
theorem convertFrom_eq_rewriteBy (hc : c.automaton.Reads base) (ho : o.automaton.Reads added)
    (hsup : ∀ w, w ∈ o.suppressed ↔ suppressed w) (hb hs : Option (Hit Text)) (t : Text)
    (hbase : hb = c.automaton.search t) (hadded : hs = o.automaton.search t) :
    c.convertFrom o hb hs t = rewriteBy (base.picked? added suppressed) t := by
  fun_induction convertFrom c o hb hs t with
  | case1 => rw [rewriteBy, scanBy_nil, List.flatMap_nil]
  | case2 hb hs x t hm =>
    have hf := follows_nextMove hc ho hsup (x :: t)
    rw [← hbase, ← hadded, hm] at hf
    rw [rewriteBy, flatMap_scanBy_of_none Segment.result rfl (fun _ _ => rfl) (x :: t).length (x :: t)
      fun p _ => hf p]
    simp [Segment.result]
  | case3 hb hs x t hm ih =>
    -- one character is copied, and both hits are looked at again behind it
    have hf := follows_nextMove hc ho hsup (x :: t)
    rw [← hbase, ← hadded, hm] at hf
    rw [rewriteBy, scanBy_of_none hf, List.flatMap_cons, ← rewriteBy]
    rw [hbase, hadded] at ih ⊢
    rw [ih (hc.lookAhead_search (x :: t) 1) (ho.lookAhead_search (x :: t) 1)]
    rfl
  | case4 hb hs x t h hm rest ih =>
    have hf := follows_nextMove hc ho hsup (x :: t)
    rw [← hbase, ← hadded, hm] at hf
    obtain ⟨hbefore, e, he, hv, hstop⟩ := hf
    -- nothing is picked before the hit, and at the hit its word is
    have hne : (x :: t).drop h.start ≠ [] := by
      intro hnil
      rw [hnil] at he
      cases he
    rw [rewriteBy, flatMap_scanBy_of_none Segment.result rfl (fun _ _ => rfl) h.start (x :: t) hbefore,
      scanBy_of_some hne he, List.flatMap_cons, List.drop_drop, hstop, ← rewriteBy]
    rw [hbase, hadded] at ih ⊢
    rw [ih (hc.lookAhead_search (x :: t) h.stop) (ho.lookAhead_search (x :: t) h.stop), ← hv,
      List.append_assoc]
    rfl

end Overlay

end Converter

/-! ## Edits -/

/-- The pair that an edit adds. -/
def Edit.added? : Edit → Option (Text × Text)
  | add source target => some (source, target)
  | remove _ => none

/-- Whether edits suppress a word; the empty text is no word. -/
def Edit.Suppressed (edits : List Edit) (w : Text) : Prop := w ≠ [] ∧ remove w ∈ edits

instance (edits : List Edit) : DecidablePred (Edit.Suppressed edits) :=
  fun _ => inferInstanceAs (Decidable (_ ∧ _))

/-- The words that edits add; of two additions of a word the later one counts. -/
def Dictionary.ofEdits (edits : List Edit) : Dictionary Text := .ofPairs (edits.filterMap Edit.added?)

namespace Overlay

theorem addsOf_eq_ofList (edits : List Edit) :
    addsOf edits = .ofList ((edits.filterMap Edit.added?).filter fun p => p.1 ≠ []) := by
  unfold addsOf
  congr 1
  rw [List.filter_filterMap]
  congr 1
  funext e
  rcases e with ⟨_ | ⟨c, s⟩, target⟩ | s <;> rfl

theorem reads_ofEdits (edits : List Edit) : (ofEdits edits).automaton.Reads (.ofEdits edits) := by
  rw [Dictionary.ofEdits, ← Dictionary.ofPairs_toList_ofList, ← addsOf_eq_ofList]
  exact Automaton.reads_ofPairs _

theorem mem_suppressed_ofEdits (edits : List Edit) (w : Text) :
    w ∈ (ofEdits edits).suppressed ↔ Edit.Suppressed edits w := by
  rw [ofEdits, suppressedOf, List.mem_eraseDups, List.mem_filterMap]
  constructor
  · rintro ⟨⟨s, target⟩ | ⟨_ | ⟨c, s⟩⟩, he, hw⟩
    · cases hw
    · cases hw
    · cases hw
      exact ⟨List.cons_ne_nil c s, he⟩
  · rintro ⟨hne, he⟩
    refine ⟨_, he, ?_⟩
    cases w with
    | nil => exact absurd rfl hne
    | cons c s => rfl

end Overlay

/-- A conversion under edits is the rewriting that remembers nothing and takes, at each position, the
word that is picked there. -/
theorem Converter.convertWith_ofEdits (v : Variant) (pairs : List (Text × Text)) (edits : List Edit)
    (t : Text) :
    (ofPairs v pairs).convertWith (.ofEdits edits) t =
      rewriteBy (Dictionary.picked? (.ofPairs pairs) (.ofEdits edits) (Edit.Suppressed edits)) t :=
  convertFrom_eq_rewriteBy (Automaton.reads_ofPairs pairs) (Overlay.reads_ofEdits edits)
    (Overlay.mem_suppressed_ofEdits edits) _ _ t rfl rfl

end HanVariants
