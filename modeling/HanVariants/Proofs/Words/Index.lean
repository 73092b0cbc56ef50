import HanVariants.Proofs.Words.Search
import HanVariants.Words.Index
/-!
# What a word index answers

Distinct words are all added, in whatever order they come, and after that a search from any start
that can be reached finds the leftmost of them and the longest one there
(`answers_of_distinct`). All matches are those found one after the other, each search starting
where the match before it stops.
-/

namespace HanVariants

variable {α : Type}

/-! ## Positions that count from the end -/

namespace Text

/-- The character at a position; a negative position counts from the end. -/
def charAt? (t : Text) (i : Int) : Option Char :=
  if 0 ≤ i then t[i.toNat]? else if -i ≤ t.length then t[(t.length + i).toNat]? else none

/-- The characters at the positions from `start` to the end of the text. -/
def charsFrom (t : Text) (start : Int) : Text :=
  (List.range (t.length - start).toNat).filterMap fun k : Nat => t.charAt? (start + k)

theorem filterMap_getElem?_range (u : Text) : (List.range u.length).filterMap (u[·]?) = u := by
  induction u with
  | nil => rfl
  | cons c u ih =>
    rw [List.length_cons, List.range_succ_eq_map, List.filterMap_cons_some (List.getElem?_cons_zero ..),
      List.filterMap_map]
    exact congrArg (c :: ·) ih

theorem charsFrom_eq {t u : Text} {start : Int} (hlen : u.length = (t.length - start).toNat)
    (hget : ∀ k < u.length, t.charAt? (start + k) = u[k]?) : t.charsFrom start = u := by
  rw [charsFrom, ← hlen, List.filterMap_congr fun k hk => hget k (List.mem_range.1 hk)]
  exact filterMap_getElem?_range u

end Text

namespace WordIndex

open Text

/-- From a start that can be reached, the characters read are those at the positions from there on. -/
theorem readFrom_eq {t : Text} {start : Int} (h : -t.length ≤ start) :
    readFrom t start = .ok (t.charsFrom start) := by
  unfold readFrom
  split
  · next h₀ =>
    congr 1
    refine (charsFrom_eq (by simp; omega) fun k hk => ?_).symm
    rw [charAt?, if_pos (by omega), List.getElem?_drop]
    congr 1
    omega
  · next h₀ =>
    rw [if_pos (by omega)]
    congr 1
    refine (charsFrom_eq (by simp; omega) fun k hk => ?_).symm
    rw [charAt?, List.getElem?_append, List.getElem?_drop, List.length_drop]
    split
    · next hk₀ =>
      rw [if_neg (by omega)]
      congr 1
      omega
    · next hk₀ =>
      rw [if_pos (by omega), if_pos (by omega)]
      congr 1
      omega

/-- What is read from a later start on is what is left of the characters read. -/
theorem readFrom_add {t u : Text} {start : Int} (h : readFrom t start = .ok u) (k : Nat) :
    readFrom t (start + k) = .ok (u.drop k) := by
  unfold readFrom at h ⊢
  split at h
  · next h₀ =>
    cases h
    rw [if_pos (by omega), List.drop_drop]
    congr 2
    omega
  · next h₀ =>
    split at h
    · next hle =>
      cases h
      rw [List.drop_append, List.drop_drop, List.length_drop]
      split
      · next hk =>
        have hnil : t.drop (((t.length : Int) + start).toNat + k) = [] :=
          List.drop_eq_nil_of_le (by omega)
        rw [hnil, List.nil_append]
        congr 2
        omega
      · next hk =>
        rw [if_pos (by omega), show k - (t.length - ((t.length : Int) + start).toNat) = 0 by omega,
          List.drop_zero]
        congr 3
        omega
    · cases h

/-! ## Words added -/

/-- Distinct words that are not there yet are all added, each with its value. -/
theorem addMany_growing {t : Trie α} (h : t.Sound) {words : List (Text × α)}
    (hd : (words.map (·.1)).Nodup) (hne : ∀ w ∈ words, w.1 ≠ []) (hnew : ∀ w ∈ words, t.find? w.1 = none) :
    ∃ t' : Trie α, (growing t).addMany words = .ok (growing t') ∧ t'.Sound ∧
      ∀ w, (t'.find? w).map (·.value) = (OrderedMap.last? w words).or ((t.find? w).map (·.value)) := by
  induction words generalizing t with
  | nil => exact ⟨t, rfl, h, fun w => rfl⟩
  | cons p words ih =>
    obtain ⟨w, a⟩ := p
    obtain ⟨hw, hd⟩ := List.nodup_cons.1 hd
    have hwne : w ≠ [] := hne (w, a) List.mem_cons_self
    have hwnew : t.find? w = none := hnew (w, a) List.mem_cons_self
    have hfind := h.find?_insert ⟨w, a, hwne⟩
    have hother : ∀ p ∈ words, p.1 ≠ w := fun p hp e => hw (List.mem_map.2 ⟨p, hp, e⟩)
    obtain ⟨t', hadd, hs, hf⟩ := ih (h.insert ⟨w, a, hwne⟩) hd
      (fun p hp => hne p (List.mem_cons_of_mem _ hp))
      fun p hp => by rw [hfind, if_neg (hother p hp)]; exact hnew p (List.mem_cons_of_mem _ hp)
    refine ⟨t', ?_, hs, fun u => ?_⟩
    · rw [addMany, add, dif_neg hwne, hwnew]
      exact hadd
    · rw [hf, hfind, OrderedMap.last?, Option.or_assoc]
      congr 1
      by_cases e : u = w
      · simp [e]
      · simp [e, Ne.symm e]

/-! ## What is found -/

/-- The words given say that the text from `p` up to `e` is the leftmost of them in the text, and the
longest one there. -/
structure LeftmostLongest (words : List (Text × α)) (s : Text) (p e : Nat) (value : α) : Prop where
  lt : p < e
  le : e ≤ s.length
  mem : ((s.take e).drop p, value) ∈ words
  leftmost : ∀ w ∈ words, ∀ q, w.1 <+: s.drop q → p ≤ q
  longest : ∀ w ∈ words, w.1 <+: s.drop p → p + w.1.length ≤ e

/-- The matches found one after the other, each search starting where the match before it stops. -/
inductive Chain (find : Int → Except StartError (Option (Match α))) : Int → List (Match α) → Prop
  | done {i : Int} (h : find i = .ok none) : Chain find i []
  | next {i : Int} {m : Match α} {ms : List (Match α)} (h : find i = .ok (some m))
      (tail : Chain find m.stop ms) : Chain find i (m :: ms)

/-- What an index with these words answers to a search of `t` from `start` on. The places of a match
are counted from the start. -/
structure Answers (words : List (Text × α)) (index : WordIndex α) (t : Text) (start : Int) : Prop where
  find : ∃ r, index.find t start = .ok r ∧
    (r = none ↔ ∀ w ∈ words, ∀ p, ¬ w.1 <+: (t.charsFrom start).drop p) ∧
    ∀ m, r = some m → ∃ p e : Nat, m.start = start + p ∧ m.stop = start + e ∧
      LeftmostLongest words (t.charsFrom start) p e m.value
  findAll : ∃ ms, index.findAll t start = .ok ms ∧ Chain (index.find t) start ms ∧
    ms.Pairwise fun m m' => m.stop ≤ m'.start

variable {a : Automaton α} {d : Dictionary α}

theorem find_ready {t u : Text} {start : Int} (hu : readFrom t start = .ok u) :
    (ready a).find t start =
      .ok ((a.search u).map fun h => ⟨start + h.start, start + h.stop, h.value⟩) := by
  simp only [find, hu]
  rfl

/-- Each match of the segments is what a search finds where the match before it stops. -/
theorem chain_matchesFrom (h : a.Reads d) (t u : Text) :
    ∀ {i : Int}, readFrom t i = .ok u →
      Chain ((ready a).find t) i (matchesFrom i (a.segments u)) := by
  fun_induction Automaton.segments a u with
  | case1 =>
    intro i hu
    exact .done (by rw [find_ready hu]; rfl)
  | case2 c u hs =>
    intro i hu
    exact .done (by rw [find_ready hu, hs]; rfl)
  | case3 c u b hs ih =>
    intro i hu
    have hstop := (h.search_eq_some_iff.1 hs).1.stop_le
    have hlt := b.start_lt_stop
    have hnext := readFrom_add hu b.stop
    have hstart : ((c :: u).take b.start).length = b.start := List.length_take_of_le (by omega)
    have hword : (((c :: u).take b.stop).drop b.start).length = b.stop - b.start := by
      rw [List.length_drop, List.length_take_of_le hstop]
    have hend : i + (b.start : Int) + ((b.stop - b.start : Nat) : Int) = i + b.stop := by omega
    simp only [matchesFrom, hstart, hword, hend]
    exact .next (by rw [find_ready hu, hs]; rfl) (ih hnext)

/-- Matches found one after the other do not overlap. -/
theorem Chain.pairwise {find : Int → Except StartError (Option (Match α))}
    (hf : ∀ i m, find i = .ok (some m) → i ≤ m.start ∧ m.start ≤ m.stop) {i : Int}
    {ms : List (Match α)} (h : Chain find i ms) :
    (∀ m ∈ ms, i ≤ m.start) ∧ ms.Pairwise fun m m' => m.stop ≤ m'.start := by
  induction h with
  | done => simp
  | @next i m ms hm _ ih =>
    have := hf i m hm
    refine ⟨fun m' hm' => ?_, List.pairwise_cons.2 ⟨ih.1, ih.2⟩⟩
    rcases List.mem_cons.1 hm' with rfl | hm'
    · exact this.1
    · have := ih.1 m' hm'
      omega

theorem le_of_find_ready {t : Text} {i : Int} {m : Match α} (h : (ready a).find t i = .ok (some m)) :
    i ≤ m.start ∧ m.start ≤ m.stop := by
  cases hu : readFrom t i with
  | error e => simp only [find, hu] at h; cases h
  | ok u =>
    rw [find_ready hu, Except.ok.injEq, Option.map_eq_some_iff] at h
    obtain ⟨b, -, rfl⟩ := h
    have := b.start_lt_stop
    simp only
    omega

/-- The leftmost word of the dictionary of distinct words, said by the words themselves. -/
theorem leftmostLongest_of_isFirst {words : List (Text × α)}
    (hd : ∀ w v, d.get? w = some v ↔ (w, v) ∈ words) {u : Text} {b : Hit α} (hb : d.IsFirst u b) :
    LeftmostLongest words u b.start b.stop b.value where
  lt := b.start_lt_stop
  le := hb.1.stop_le
  mem := (hd _ _).1 hb.1.get?
  leftmost w hw q hq := by
    obtain ⟨g, hg, rfl, -⟩ := Dictionary.exists_stands hq ((hd w.1 w.2).2 hw)
    exact hb.start_le hg
  longest w hw hp := by
    obtain ⟨g, hg, hs, he, -⟩ := Dictionary.exists_stands hp ((hd w.1 w.2).2 hw)
    rw [← he]
    exact hb.stop_le hg hs

/-- An automaton of the words answers every search that can be started. -/
theorem answers_ready (h : a.Reads d) {words : List (Text × α)}
    (hd : ∀ w v, d.get? w = some v ↔ (w, v) ∈ words) {t : Text} {start : Int} (hs : -t.length ≤ start) :
    Answers words (ready a) t start := by
  have hu := readFrom_eq hs
  refine ⟨⟨_, find_ready hu, ?_, fun m hm => ?_⟩, matchesFrom start (a.segments (t.charsFrom start)), ?_,
    chain_matchesFrom h t _ hu, ((chain_matchesFrom h t _ hu).pairwise fun i m => le_of_find_ready).2⟩
  · rw [Option.map_eq_none_iff, h.search_eq_none_iff]
    constructor
    · intro hn w hw p hp
      obtain ⟨g, hg, -⟩ := Dictionary.exists_stands hp ((hd w.1 w.2).2 hw)
      exact hn g hg
    · intro hn g hg
      exact hn _ ((hd _ _).1 hg.get?) g.start (Dictionary.word_isPrefix _ g)
  · obtain ⟨b, hb, rfl⟩ := Option.map_eq_some_iff.1 hm
    exact ⟨b.start, b.stop, rfl, rfl, leftmostLongest_of_isFirst hd (h.search_eq_some_iff.1 hb)⟩
  · simp only [findAll, hu]
    rfl

/-- Distinct words, none of them empty, are all added; and then every search that can be started
finds the leftmost of them and the longest one there, and all matches are those found one after the
other. -/
theorem answers_of_distinct (words : List (Text × α)) (hd : (words.map (·.1)).Nodup)
    (hne : ∀ w ∈ words, w.1 ≠ []) :
    ∃ index : WordIndex α, empty.addMany words = .ok index ∧
      ∀ (t : Text) (start : Int), -t.length ≤ start → Answers words index.close t start := by
  obtain ⟨t', hadd, hs, hf⟩ := addMany_growing Trie.sound_empty hd hne fun w _ => Trie.find?_empty w.1
  refine ⟨growing t', hadd, fun t start hstart => ?_⟩
  have hreads : (Automaton.ofTrie t').Reads (.ofPairs words) := by
    refine Automaton.reads_ofTrie hs fun w => ?_
    rw [hf, Trie.find?_empty, Option.map_none, Option.or_none, Dictionary.get?_ofPairs_of_ne_nil hne]
  exact answers_ready hreads (fun w v => Dictionary.get?_ofPairs_eq_some_iff hd hne) hstart

theorem answers_ab_b :
    ([(['a', 'b'], 1), (['b'], 2)].map (·.1)).Nodup ∧ (∀ w ∈ [(['a', 'b'], 1), (['b'], 2)], w.1 ≠ []) ∧
      -(['b', 'a'].length : Int) ≤ -1 ∧
      ∃ index : WordIndex Nat, empty.addMany [(['a', 'b'], 1), (['b'], 2)] = .ok index ∧
        Answers [(['a', 'b'], 1), (['b'], 2)] index.close ['b', 'a'] (-1) := by
  have hd : ([(['a', 'b'], 1), (['b'], 2)].map (·.1)).Nodup := by decide
  have hne : ∀ w ∈ [(['a', 'b'], 1), (['b'], 2)], w.1 ≠ [] := by decide
  obtain ⟨index, hadd, h⟩ := answers_of_distinct [(['a', 'b'], 1), (['b'], 2)] hd hne
  exact ⟨hd, hne, by decide, index, hadd, h ['b', 'a'] (-1) (by decide)⟩

end WordIndex

end HanVariants
