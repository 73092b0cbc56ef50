import HanVariants.Proofs.Words.Index
/-!
# Word indexes after any calls

After any calls an index has the words whose additions were not refused, each once, and is closed if
one of the calls has closed it (`Holds.runAll`). From this follows what it answers to the next call
(`answers_runAll`). A refused word leaves nothing behind. This holds also where a word is known to be
there only once its path was made, since the path of such a word is there already
(`Trie.Holds.spellEntry_eq`).
-/

namespace HanVariants

variable {α : Type}

namespace Trie

/-! ## Tries that have just some words -/

/-- The trie has just these words, each once and with its value. -/
structure Holds (t : Trie α) (words : List (Text × α)) : Prop where
  sound : t.Sound
  nodup : (words.map (·.1)).Nodup
  ne_nil : ∀ w ∈ words, w.1 ≠ []
  find? : ∀ w, (t.find? w).map (·.value) = OrderedMap.last? w words

theorem holds_empty : ({} : Trie α).Holds [] where
  sound := sound_empty
  nodup := List.nodup_nil
  ne_nil := by simp
  find? w := by rw [find?_empty]; rfl

namespace Holds

variable {t : Trie α} {words : List (Text × α)}

theorem isSome_find?_iff (h : t.Holds words) (w : Text) :
    (t.find? w).isSome ↔ w ∈ words.map (·.1) := by
  rw [← Option.isSome_map, h.find?, ← not_iff_not, ← OrderedMap.last?_eq_none_iff]
  simp

theorem size (h : t.Holds words) : t.size = words.length := by
  have hperm : (t.entries.map (·.word)).Perm (words.map (·.1)) :=
    (List.perm_ext_iff_of_nodup h.sound.nodup_words h.nodup).2 fun w =>
      h.sound.mem_words_iff.trans (h.isSome_find?_iff w)
  have hlength := hperm.length_eq
  rwa [List.length_map, List.length_map] at hlength

theorem insert (h : t.Holds words) {e : Entry α} (he : e.word ∉ words.map (·.1)) :
    (t.insert e).Holds (words ++ [(e.word, e.value)]) where
  sound := h.sound.insert e
  nodup := by
    rw [List.map_append, List.nodup_append]
    refine ⟨h.nodup, by simp, fun w hw w' hw' heq => he ?_⟩
    have hword : w' = e.word := List.mem_singleton.1 hw'
    rwa [← hword, ← heq]
  ne_nil := List.forall_mem_append.2 ⟨h.ne_nil, by simpa using e.word_ne_nil⟩
  find? w := by
    rw [h.sound.find?_insert, OrderedMap.last?_append, ← h.find?, OrderedMap.last?, OrderedMap.last?]
    by_cases hw : w = e.word
    · simp [hw]
    · simp [hw, Ne.symm hw]

theorem reads (h : t.Holds words) : (Automaton.ofTrie t).Reads (.ofPairs words) := by
  refine Automaton.reads_ofTrie h.sound fun w => ?_
  rw [h.find?, Dictionary.get?_ofPairs_of_ne_nil h.ne_nil]

end Holds

/-! ## Words known at their last node -/

theorem spell_of_walk? {t : Trie α} {n m : Nat} {w : Text} (h : t.walk? n w = some m) :
    t.spell n w = (t, m) := by
  induction w generalizing n with
  | nil =>
    cases h
    rfl
  | cons c w ih =>
    obtain ⟨k, hk, hw⟩ := Option.bind_eq_some_iff.1 h
    rw [spell, hk]
    exact ih hw

/-- Makes the path of a word before it looks whether the word is there; tells whether it was added. -/
def spellEntry (t : Trie α) (e : Entry α) : Trie α × Bool :=
  let (t, n) := t.spell root e.word
  if (t.wordAt? n).isSome then (t, false) else (t.setEntry n e, true)

/-- Whether one looks before the path is made or after makes no difference. -/
theorem Holds.spellEntry_eq {t : Trie α} {words : List (Text × α)} (h : t.Holds words) (e : Entry α) :
    t.spellEntry e = if e.word ∈ words.map (·.1) then (t, false) else (t.insert e, true) := by
  rw [← if_congr (h.isSome_find?_iff e.word) rfl rfl]
  cases hf : t.find? e.word with
  | some e' =>
    obtain ⟨n, hn, he'⟩ := Option.bind_eq_some_iff.1 hf
    simp [spellEntry, spell_of_walk? hn, he']
  | none =>
    -- the nodes made hold no words, and the last of them is that of the word
    obtain ⟨hs, hx, hwalk⟩ := h.sound.spell h.sound.root_lt e.word
    have hnew := hx.find?_eq h.sound hs e.word
    rw [hf, Trie.find?, hwalk, Option.bind_some] at hnew
    simp [spellEntry, hnew, Trie.insert]

end Trie

namespace WordIndex

/-! ## What calls do -/

namespace Call

/-- Whether a call closes the index, be it that its search then fails. -/
def closes : Call α → Bool
  | add _ _ | size => false
  | close | find _ _ => true
  | findAll t start => start < t.length

/-- The word that a call with this answer has added. -/
def added? : Call α → Answer α → Option (Text × α)
  | add word value, .size _ => some (word, value)
  | _, _ => none

end Call

/-- The words that calls have added, in order: those of the calls that were not refused. -/
def added (index : WordIndex α) (calls : List (Call α)) : List (Text × α) :=
  (calls.zip (index.runAll calls).2).filterMap fun (call, answer) => call.added? answer

theorem runAll_cons (index : WordIndex α) (call : Call α) (calls : List (Call α)) :
    index.runAll (call :: calls) =
      (((index.run call).1.runAll calls).1, (index.run call).2 :: ((index.run call).1.runAll calls).2) :=
  rfl

theorem added_cons (index : WordIndex α) (call : Call α) (calls : List (Call α)) :
    index.added (call :: calls) =
      (call.added? (index.run call).2).toList ++ (index.run call).1.added calls := by
  rw [added, runAll_cons, List.zip_cons_cons]
  cases hadded : call.added? (index.run call).2 with
  | none => exact List.filterMap_cons_none hadded
  | some w => exact List.filterMap_cons_some hadded

theorem runAll_append (index : WordIndex α) (calls later : List (Call α)) :
    index.runAll (calls ++ later) =
      (((index.runAll calls).1.runAll later).1,
        (index.runAll calls).2 ++ ((index.runAll calls).1.runAll later).2) := by
  induction calls generalizing index with
  | nil => rfl
  | cons call calls ih => rw [List.cons_append, runAll_cons, ih, runAll_cons, List.cons_append]

/-- A refused word leaves the index as it is. -/
theorem run_of_refused {index : WordIndex α} {w : Text} {v : α} {e : AddError}
    (h : (index.run (.add w v)).2 = .refused e) : (index.run (.add w v)).1 = index := by
  rw [run] at h ⊢
  split at h
  · cases h
  · rfl

/-! ## What an index has -/

/-- The index has just these words, and is closed or not. -/
inductive Holds (words : List (Text × α)) : WordIndex α → Bool → Prop
  | growing {t : Trie α} (h : t.Holds words) : Holds words (growing t) false
  | ready {t : Trie α} (h : t.Holds words) : Holds words (ready (.ofTrie t)) true

theorem holds_empty : Holds ([] : List (Text × α)) empty false := .growing Trie.holds_empty

namespace Holds

variable {words : List (Text × α)} {index : WordIndex α} {closed : Bool}

theorem size (h : Holds words index closed) : index.size = words.length := by
  cases h with
  | growing h => exact h.size
  | ready h => exact h.size

theorem close (h : Holds words index closed) : Holds words index.close true := by
  cases h with
  | growing h => exact .ready h
  | ready h => exact .ready h

theorem of_growing {t : Trie α} (h : Holds words (.growing t) closed) : t.Holds words := by
  cases h with
  | growing h => exact h

theorem answers (h : Holds words index closed) {t : Text} {start : Int} (hs : -t.length ≤ start) :
    Answers words index.close t start := by
  have answered : ∀ {trie : Trie α}, trie.Holds words → Answers words (.ready (.ofTrie trie)) t start :=
    fun h => answers_ready h.reads (fun _ _ => Dictionary.get?_ofPairs_eq_some_iff h.nodup h.ne_nil) hs
  cases h with
  | growing h => exact answered h
  | ready h => exact answered h

/-- What becomes of a word that is to be added. -/
theorem add_cases (h : Holds words index closed) (w : Text) (v : α) :
    (closed = true ∧ index.add w v = .error .closed) ∨
    (closed = false ∧ w = [] ∧ index.add w v = .error .emptyWord) ∨
    (closed = false ∧ w ≠ [] ∧ w ∈ words.map (·.1) ∧ index.add w v = .error (.duplicate w)) ∨
    (closed = false ∧ w ≠ [] ∧ w ∉ words.map (·.1) ∧
      ∃ index', index.add w v = .ok index' ∧ Holds (words ++ [(w, v)]) index' false) := by
  cases h with
  | ready h => exact .inl ⟨rfl, rfl⟩
  | @growing t h =>
    by_cases hne : w = []
    · exact .inr (.inl ⟨rfl, hne, by rw [add, dif_pos hne]⟩)
    · by_cases hw : w ∈ words.map (·.1)
      · refine .inr (.inr (.inl ⟨rfl, hne, hw, ?_⟩))
        rw [add, dif_neg hne, if_pos ((h.isSome_find?_iff w).2 hw)]
      · refine .inr (.inr (.inr ⟨rfl, hne, hw, .growing (t.insert ⟨w, v, hne⟩), ?_, .growing (h.insert hw)⟩))
        rw [add, dif_neg hne, if_neg fun hf => hw ((h.isSome_find?_iff w).1 hf)]

theorem answer_add (h : Holds words index closed) (w : Text) (v : α) :
    (index.run (.add w v)).2 =
      if closed then .refused .closed
      else if w = [] then .refused .emptyWord
      else if w ∈ words.map (·.1) then .refused (.duplicate w)
      else .size (words.length + 1) := by
  rcases h.add_cases w v with ⟨hc, ha⟩ | ⟨hc, hw, ha⟩ | ⟨hc, hne, hw, ha⟩ | ⟨hc, hne, hw, index', ha, h'⟩
  · simp only [run, ha, hc, if_true]
  · simp only [run, ha, hc, if_pos hw, Bool.false_eq_true, if_false]
  · simp only [run, ha, hc, if_neg hne, if_pos hw, Bool.false_eq_true, if_false]
  · simp only [run, ha, hc, if_neg hne, if_neg hw, Bool.false_eq_true, if_false, h'.size,
      List.length_append, List.length_singleton]

/-- One call adds the word that it was not refused, and closes the index if it is one that does. -/
theorem run (h : Holds words index closed) (call : Call α) :
    Holds (words ++ (call.added? (index.run call).2).toList) (index.run call).1
      (closed || call.closes) := by
  cases call with
  | add w v =>
    rw [Call.closes, Bool.or_false]
    rcases h.add_cases w v with ⟨hc, ha⟩ | ⟨hc, -, ha⟩ | ⟨hc, -, -, ha⟩ | ⟨hc, -, -, index', ha, h'⟩
    · simpa [WordIndex.run, ha, Call.added?] using h
    · simpa [WordIndex.run, ha, Call.added?] using h
    · simpa [WordIndex.run, ha, Call.added?] using h
    · simpa [WordIndex.run, ha, Call.added?, hc] using h'
  | close => simpa [WordIndex.run, Call.added?, Call.closes] using h.close
  | size => simpa [WordIndex.run, Call.added?, Call.closes] using h
  | find t start => simpa [WordIndex.run, Call.added?, Call.closes] using h.close
  | findAll t start =>
    by_cases hs : start < t.length
    · simpa [WordIndex.run, Call.added?, Call.closes, hs] using h.close
    · simpa [WordIndex.run, Call.added?, Call.closes, hs] using h

/-- Calls add the words that were not refused, and close the index if one of them does. -/
theorem runAll (h : Holds words index closed) (calls : List (Call α)) :
    Holds (words ++ index.added calls) (index.runAll calls).1 (closed || calls.any Call.closes) := by
  induction calls generalizing words index closed with
  | nil => simpa [WordIndex.runAll, added] using h
  | cons call calls ih =>
    have hrest := ih (h.run call)
    rwa [List.append_assoc, ← added_cons, Bool.or_assoc, ← List.any_cons] at hrest

end Holds

/-! ## What an index answers -/

/-- A search closes the index first, and where it does not there is nothing to be found. -/
theorem answer_findAll (index : WordIndex α) (t : Text) (start : Int) :
    (index.run (.findAll t start)).2 = .ofFindAll (index.close.findAll t start) := by
  rw [run]
  dsimp only
  split
  · rfl
  · rfl

/-- Whatever calls were made: a word is refused just where the index is closed, else where it is empty
or was added before; after a refused word all later calls are answered as without it, and it would be
so if its path were made before it is refused; the size is the number of words added; and every search
that can be started finds just these words. -/
theorem answers_runAll (calls : List (Call α)) :
    let index := (empty.runAll calls).1
    let words := empty.added calls
    (∀ w v, (index.run (.add w v)).2 =
      if calls.any Call.closes then .refused .closed
      else if w = [] then .refused .emptyWord
      else if w ∈ words.map (·.1) then .refused (.duplicate w)
      else .size (words.length + 1)) ∧
    (∀ w v e later, (index.run (.add w v)).2 = .refused e →
      (empty.runAll (calls ++ .add w v :: later)).2 =
        (empty.runAll calls).2 ++ .refused e :: (index.runAll later).2 ∧
      (empty.runAll (calls ++ later)).2 = (empty.runAll calls).2 ++ (index.runAll later).2) ∧
    (∀ t e, index = growing t →
      t.spellEntry e = if e.word ∈ words.map (·.1) then (t, false) else (t.insert e, true)) ∧
    (index.run .size).2 = .size words.length ∧
    ∀ t start, (index.run (.find t start)).2 = .ofFind (index.close.find t start) ∧
      (index.run (.findAll t start)).2 = .ofFindAll (index.close.findAll t start) ∧
      (-t.length ≤ start → Answers words index.close t start) := by
  intro index words
  have h : Holds words index (calls.any Call.closes) := holds_empty.runAll calls
  refine ⟨h.answer_add, fun w v e later he => ⟨?_, ?_⟩, fun t e ht => ?_, ?_, fun t start => ⟨rfl, ?_, h.answers⟩⟩
  · rw [runAll_append, runAll_cons, run_of_refused he, he]
  · rw [runAll_append]
  · rw [ht] at h
    exact h.of_growing.spellEntry_eq e
  · exact congrArg Answer.size h.size
  · exact answer_findAll index t start

theorem answers_runAll_ab_b :
    let calls : List (Call Nat) := [.add ['a', 'b'] 1, .add ['b'] 2, .add [] 3]
    let later : List (Call Nat) := [.find ['b', 'a'] (-3), .add ['c'] 5]
    let index := (empty.runAll calls).1
    (index.run (.add ['b'] 4)).2 = .refused (.duplicate ['b']) ∧
      (empty.runAll (calls ++ .add ['b'] 4 :: later)).2 =
        [.size 1, .size 2, .refused .emptyWord, .refused (.duplicate ['b']), .unreachable .beforeText,
          .refused .closed] ∧
      (∃ t, index = growing t ∧ t.spellEntry ⟨['b'], 4, by decide⟩ = (t, false)) ∧
      -(['b', 'a'].length : Int) ≤ -1 ∧
      Answers [(['a', 'b'], 1), (['b'], 2)] index.close ['b', 'a'] (-1) := by
  intro calls later index
  obtain ⟨hadd, hlater, hspell, -, hsearch⟩ := answers_runAll calls
  have hdup : (index.run (.add ['b'] 4)).2 = .refused (.duplicate ['b']) := hadd ['b'] 4
  exact ⟨hdup, (hlater ['b'] 4 _ later hdup).1, ⟨_, rfl, hspell _ ⟨['b'], 4, by decide⟩ rfl⟩, by decide,
    (hsearch ['b', 'a'] (-1)).2.2 (by decide)⟩

end WordIndex

end HanVariants
