import HanVariants.Overlay
import HanVariants.Proofs.Words.Dictionary
import HanVariants.Proofs.Words.Links
/-!
# What a search finds

An automaton that holds the words of a dictionary finds the leftmost place of a text where a word
stands, and the longest word there (`search_eq_some_iff`). While it reads, the best hit so far is
the best of all words that end before the position reached (`BestUpTo`); it stops early only where
no word that starts in time can still end. Cutting a text along the hits is the same as reading it
position by position (`flatMap_segments`).
-/

namespace HanVariants

variable {α : Type}

namespace Hit

/-- Starts earlier, or at the same place and stops no earlier. -/
def NoWorse (b h : Hit α) : Prop := b.start < h.start ∨ b.start = h.start ∧ h.stop ≤ b.stop

theorem NoWorse.trans {a b c : Hit α} (h : a.NoWorse b) (h' : b.NoWorse c) : a.NoWorse c := by
  unfold NoWorse at *
  omega

theorem NoWorse.antisymm {a b : Hit α} (h : a.NoWorse b) (h' : b.NoWorse a) :
    a.start = b.start ∧ a.stop = b.stop := by
  unfold NoWorse at *
  omega

theorem noWorse_of_not_beats {a b : Hit α} (h : a.beats b = false) : b.NoWorse a := by
  simp only [beats, Bool.or_eq_false_iff, decide_eq_false_iff_not, Bool.and_eq_false_iff,
    beq_eq_false_iff_ne] at h
  unfold NoWorse
  omega

theorem noWorse_of_beats {a b : Hit α} (h : a.beats b = true) : a.NoWorse b := by
  simp only [beats, Bool.or_eq_true, decide_eq_true_eq, Bool.and_eq_true, beq_iff_eq] at h
  unfold NoWorse
  omega

end Hit

namespace Dictionary

/-- A word of the dictionary stands in the text where the hit says. -/
structure Stands (d : Dictionary α) (t : Text) (h : Hit α) : Prop where
  stop_le : h.stop ≤ t.length
  get? : d.get? ((t.take h.stop).drop h.start) = some h.value

/-- The leftmost word that stands in a text, and the longest one there. -/
def IsFirst (d : Dictionary α) (t : Text) (b : Hit α) : Prop :=
  d.Stands t b ∧ ∀ h, d.Stands t h → b.NoWorse h

/-- The best of the words that end at the position `i` or before it, if there are any. -/
def BestUpTo (d : Dictionary α) (t : Text) (i : Nat) : Option (Hit α) → Prop
  | none => ∀ h, d.Stands t h → i < h.stop
  | some b => d.Stands t b ∧ ∀ h, d.Stands t h → h.stop ≤ i → b.NoWorse h

variable {d : Dictionary α} {t : Text}

theorem IsFirst.start_le {b h : Hit α} (hb : d.IsFirst t b) (hh : d.Stands t h) : b.start ≤ h.start := by
  rcases hb.2 h hh with hlt | ⟨he, -⟩
  · exact Nat.le_of_lt hlt
  · exact Nat.le_of_eq he

theorem IsFirst.stop_le {b h : Hit α} (hb : d.IsFirst t b) (hh : d.Stands t h) (hs : h.start = b.start) :
    h.stop ≤ b.stop := by
  rcases hb.2 h hh with hlt | ⟨-, hle⟩
  · exact absurd hs (Nat.ne_of_gt hlt)
  · exact hle

theorem IsFirst.unique {b b' : Hit α} (h : d.IsFirst t b) (h' : d.IsFirst t b') : b = b' := by
  obtain ⟨hs, he⟩ := (h.2 b' h'.1).antisymm (h'.2 b h.1)
  have hv := h.1.get?
  rw [hs, he, h'.1.get?, Option.some.injEq] at hv
  cases b
  cases b'
  simp_all

/-! ## Words by their places -/

theorem word_isPrefix (t : Text) (h : Hit α) : (t.take h.stop).drop h.start <+: t.drop h.start := by
  rw [List.drop_take]
  exact List.take_prefix _ _

theorem Stands.length_word {h : Hit α} (hs : d.Stands t h) :
    ((t.take h.stop).drop h.start).length = h.stop - h.start := by
  rw [List.length_drop, List.length_take_of_le hs.stop_le]

theorem exists_stands {p : Nat} {w : Text} {a : α} (hp : w <+: t.drop p) (ha : d.get? w = some a) :
    ∃ h, d.Stands t h ∧ h.start = p ∧ h.stop = p + w.length ∧ h.value = a := by
  have hne : w ≠ [] := by
    rintro rfl
    rw [d.get?_nil] at ha
    cases ha
  have hpos := List.length_pos_iff.2 hne
  have hle := hp.length_le
  rw [List.length_drop] at hle
  refine ⟨⟨p, p + w.length, a, by omega⟩, ⟨by simp only; omega, ?_⟩, rfl, rfl, rfl⟩
  rw [List.drop_take, Nat.add_sub_cancel_left, ← List.prefix_iff_eq_take.1 hp, ha]

/-- A word that stands in the rest of a text stands in the text. -/
theorem Stands.of_drop {k : Nat} {g : Hit α} (hg : d.Stands (t.drop k) g) :
    ∃ h, d.Stands t h ∧ ∃ hk : k ≤ h.start, h.after k hk = g := by
  have hlt := g.start_lt_stop
  have hp := word_isPrefix (t.drop k) g
  rw [List.drop_drop] at hp
  obtain ⟨h, hh, hs, he, hv⟩ := exists_stands hp hg.get?
  rw [hg.length_word] at he
  refine ⟨h, hh, by omega, ?_⟩
  cases g
  rw [Hit.after, Hit.mk.injEq]
  refine ⟨?_, ?_, hv⟩ <;> simp only at hlt hs he <;> omega

theorem Stands.after {k : Nat} {h : Hit α} (hs : d.Stands t h) (hk : k ≤ h.start) :
    d.Stands (t.drop k) (h.after k hk) := by
  have hlt := h.start_lt_stop
  have hle := hs.stop_le
  refine ⟨by simp only [Hit.after, List.length_drop]; omega, ?_⟩
  simp only [Hit.after]
  rw [List.take_drop, List.drop_drop, Nat.add_sub_cancel' hk, Nat.add_sub_cancel' (by omega), hs.get?]

/-- The leftmost word of a text is the leftmost word of what is ahead, as long as it is ahead. -/
theorem IsFirst.after {k : Nat} {b : Hit α} (h : d.IsFirst t b) (hk : k ≤ b.start) :
    d.IsFirst (t.drop k) (b.after k hk) := by
  refine ⟨h.1.after hk, fun g hg => ?_⟩
  obtain ⟨g', hg', hk', rfl⟩ := hg.of_drop
  have hworse := h.2 g' hg'
  have hlt := g'.start_lt_stop
  unfold Hit.NoWorse at *
  simp only [Hit.after]
  omega

theorem longest?_drop_eq_none {p : Nat} (h : ∀ g, d.Stands t g → g.start ≠ p) :
    d.longest? (t.drop p) = none := by
  rw [longest?_eq_none_iff]
  intro w hp
  by_contra hw
  obtain ⟨a, ha⟩ := Option.ne_none_iff_exists'.1 hw
  obtain ⟨g, hg, hs, -⟩ := exists_stands hp ha
  exact h g hg hs

theorem IsFirst.longest?_eq_none {b : Hit α} (h : d.IsFirst t b) {p : Nat} (hp : p < b.start) :
    d.longest? (t.drop p) = none := by
  apply longest?_drop_eq_none
  rintro g hg rfl
  exact Nat.not_lt.2 (h.start_le hg) hp

/-- At the place of the leftmost word the longest one is the word itself. -/
theorem IsFirst.longest? {b : Hit α} (h : d.IsFirst t b) :
    ∃ e, d.longest? (t.drop b.start) = some e ∧ e.word = (t.take b.stop).drop b.start ∧
      e.value = b.value ∧ b.start + e.word.length = b.stop := by
  have hlen := h.1.length_word
  have hlt := b.start_lt_stop
  have hne : (t.take b.stop).drop b.start ≠ [] := by
    rw [← List.length_pos_iff]
    omega
  refine ⟨⟨_, b.value, hne⟩, longest?_eq_some_iff.2 ⟨word_isPrefix t b, h.1.get?, fun w hp hw => ?_⟩,
    rfl, rfl, by simp only; omega⟩
  obtain ⟨a, ha⟩ := Option.isSome_iff_exists.1 hw
  obtain ⟨g, hg, hs, he, -⟩ := exists_stands hp ha
  have := h.stop_le hg hs
  simp only
  omega

/-! ## The longest word at the end of what was read -/

theorem findSome?_tails_eq_none {f : Text → Option (Entry α)} {x s : Text}
    (h : x.tails.findSome? f = none) (hs : s <:+ x) : f s = none :=
  List.findSome?_eq_none_iff.1 h s (List.mem_tails s x |>.2 hs)

theorem findSome?_tails_eq_some {f : Text → Option (Entry α)} {x : Text} {e : Entry α}
    (h : x.tails.findSome? f = some e) :
    ∃ s, s <:+ x ∧ f s = some e ∧ ∀ s', s' <:+ x → s.length < s'.length → f s' = none := by
  induction x with
  | nil => exact ⟨[], List.suffix_rfl, by simpa using h, fun s' hs hlt => absurd hs.length_le (by omega)⟩
  | cons c x ih =>
    rw [List.tails_cons, List.findSome?_cons] at h
    cases hc : f (c :: x) with
    | some e' =>
      simp only [hc, Option.some.injEq] at h
      exact ⟨c :: x, List.suffix_rfl, h ▸ hc, fun s' hs hlt => absurd hs.length_le (by omega)⟩
    | none =>
      simp only [hc] at h
      obtain ⟨s, hs, he, hl⟩ := ih h
      refine ⟨s, hs.trans (List.suffix_cons c x), he, fun s' hs' hlt => ?_⟩
      rcases List.suffix_cons_iff.1 hs' with rfl | hs'
      · exact hc
      · exact hl s' hs' hlt

/-- A word that ends with `x` is better found by the longest word that `x` ends with. -/
theorem bestUpTo_better {x rest : Text} {c : Char} (ht : t = x ++ c :: rest) {best : Option (Hit α)}
    (hb : d.BestUpTo t x.length best) :
    d.BestUpTo t (x.length + 1)
      (Automaton.better best x.length ((x ++ [c]).tails.findSome? d.entry?)) := by
  have hx : ∀ k, (t.take (x.length + 1)).drop k = (x ++ [c]).drop k := by
    intro k
    rw [ht, List.append_cons, List.take_left' (by simp)]
  have hsuffix : ∀ h : Hit α, h.stop = x.length + 1 → (t.take h.stop).drop h.start <:+ x ++ [c] := by
    intro h hh
    rw [hh, hx]
    exact List.drop_suffix _ _
  cases hf : (x ++ [c]).tails.findSome? d.entry? with
  | none =>
    have hnone : ∀ h, d.Stands t h → h.stop ≠ x.length + 1 := by
      intro h hs hh
      have := findSome?_tails_eq_none hf (hsuffix h hh)
      rw [entry?_eq_none_iff, hs.get?] at this
      cases this
    cases best with
    | none =>
      intro h hs
      have := hb h hs
      have := hnone h hs
      omega
    | some b =>
      refine ⟨hb.1, fun h hs hle => hb.2 h hs ?_⟩
      have := hnone h hs
      omega
  | some e =>
    obtain ⟨s, hs, he, hl⟩ := findSome?_tails_eq_some hf
    obtain ⟨rfl, hv⟩ := entry?_eq_some_iff.1 he
    have hlen := hs.length_le
    simp only [List.length_append, List.length_singleton] at hlen
    have hstands : d.Stands t (.endingAt x.length e) := by
      refine ⟨by simp [ht, Hit.endingAt], ?_⟩
      simp only [Hit.endingAt]
      rw [hx, ← hv]
      congr 1
      simpa using (List.suffix_iff_eq_drop.1 hs).symm
    have hbest : ∀ h, d.Stands t h → h.stop = x.length + 1 → (Hit.endingAt x.length e).NoWorse h := by
      intro h hh hstop
      have hlt := h.start_lt_stop
      have : ¬ e.word.length < ((t.take h.stop).drop h.start).length := by
        intro hlt
        have := hl _ (hsuffix h hstop) hlt
        rw [entry?_eq_none_iff, hh.get?] at this
        cases this
      have := hh.stop_le
      simp only [List.length_drop, List.length_take] at *
      simp only [Hit.NoWorse, Hit.endingAt]
      omega
    cases best with
    | none =>
      refine ⟨hstands, fun h hh hle => hbest h hh ?_⟩
      have := hb h hh
      omega
    | some b =>
      simp only [Automaton.better]
      split
      · next hbeats =>
        refine ⟨hstands, fun h hh hle => ?_⟩
        rcases Nat.le_succ_iff.1 hle with hle | hstop
        · exact (Hit.noWorse_of_beats hbeats).trans (hb.2 h hh hle)
        · exact hbest h hh hstop
      · next hbeats =>
        refine ⟨hb.1, fun h hh hle => ?_⟩
        rcases Nat.le_succ_iff.1 hle with hle | hstop
        · exact hb.2 h hh hle
        · exact (Hit.noWorse_of_not_beats (by simpa using hbeats)).trans (hbest h hh hstop)

end Dictionary

namespace Automaton

/-- The automaton of a trie that holds the words of a dictionary. -/
structure Reads (a : Automaton α) (d : Dictionary α) : Prop where
  sound : a.trie.Sound
  eq_ofTrie : a = .ofTrie a.trie
  find? : ∀ w, a.trie.find? w = d.entry? w

variable {a : Automaton α} {d : Dictionary α}

theorem Reads.output?_run (h : a.Reads d) (x : Text) :
    a.output? (a.run Trie.root x) = x.tails.findSome? d.entry? := by
  rw [h.eq_ofTrie, Automaton.output?_run h.sound, funext h.find?]

/-- A word that starts in time is still being read, and so its start is at most as deep as the node. -/
theorem Reads.lt_start (h : a.Reads d) {t x rest : Text} {c : Char} (ht : t = x ++ c :: rest)
    {b : Hit α} (hb : b.start + a.trie.depth (a.run Trie.root (x ++ [c])) < x.length + 1)
    {g : Hit α} (hg : d.Stands t g) (hstop : x.length < g.stop) : b.start < g.start := by
  by_contra hle
  have hsplit : t.take g.stop = x ++ [c] ++ (t.take g.stop).drop (x.length + 1) := by
    have hx : (t.take g.stop).take (x.length + 1) = x ++ [c] := by
      rw [List.take_take, Nat.min_eq_left hstop, ht, List.append_cons, List.take_left' (by simp)]
    rw [← hx, List.take_append_drop]
  -- the part of the word that was read is a path
  have hpath : (a.trie.walk? Trie.root ((x ++ [c]).drop g.start)).isSome := by
    have hw := hg.get?
    rw [hsplit, List.drop_append_of_le_length (by simp; omega)] at hw
    obtain ⟨e, he⟩ := Dictionary.exists_entry? hw
    obtain ⟨n, hn, -⟩ := Option.bind_eq_some_iff.1 ((h.find? _).trans he)
    exact Trie.isSome_walk?_of_append (Option.isSome_iff_exists.2 ⟨n, hn⟩)
  have hdepth := length_le_depth_run h.sound (List.drop_suffix g.start (x ++ [c])) hpath
  rw [← h.eq_ofTrie] at hdepth
  simp only [List.length_drop, List.length_append, List.length_singleton] at hdepth
  omega

/-- Reading on keeps the best hit so far the best of the words that have ended. -/
theorem Reads.searchFrom (h : a.Reads d) {t : Text} (rest : Text) :
    ∀ (x : Text) (best : Option (Hit α)), t = x ++ rest → d.BestUpTo t x.length best →
      d.BestUpTo t t.length (a.searchFrom x.length (a.run Trie.root x) best rest) := by
  induction rest with
  | nil =>
    intro x best ht hb
    rw [List.append_nil] at ht
    rw [Automaton.searchFrom, ht]
    exact ht ▸ hb
  | cons c rest ih =>
    intro x best ht hb
    have hnext := ih (x ++ [c]) (better best x.length ((x ++ [c]).tails.findSome? d.entry?))
      (by simp [ht]) (by simpa using Dictionary.bestUpTo_better ht hb)
    rw [List.length_append, List.length_singleton] at hnext
    rw [← h.output?_run, run_concat] at hnext
    cases best with
    | none => exact hnext
    | some b =>
      rw [Automaton.searchFrom]
      split
      · next hstop =>
        rw [← run_concat] at hstop
        refine ⟨hb.1, fun g hg _ => ?_⟩
        -- a word that has not ended yet starts behind the best hit
        rcases Nat.lt_or_ge x.length g.stop with hlt | hle
        · exact .inl (h.lt_start ht hstop hg hlt)
        · exact hb.2 g hg hle
      · exact hnext

theorem Reads.bestUpTo_search (h : a.Reads d) (t : Text) : d.BestUpTo t t.length (a.search t) := by
  refine h.searchFrom t [] none rfl fun g hg => ?_
  have := g.start_lt_stop
  simp only [List.length_nil]
  omega

theorem Reads.search_eq_none_iff (h : a.Reads d) {t : Text} :
    a.search t = none ↔ ∀ g, ¬ d.Stands t g := by
  have hb := h.bestUpTo_search t
  constructor
  · intro hs g hg
    rw [hs] at hb
    exact Nat.not_lt.2 hg.stop_le (hb g hg)
  · intro hn
    cases hs : a.search t with
    | none => rfl
    | some b =>
      rw [hs] at hb
      exact absurd hb.1 (hn b)

/-- A search finds the leftmost word, and the longest one there. -/
theorem Reads.search_eq_some_iff (h : a.Reads d) {t : Text} {b : Hit α} :
    a.search t = some b ↔ d.IsFirst t b := by
  have hb := h.bestUpTo_search t
  have first : ∀ b, a.search t = some b → d.IsFirst t b := by
    intro b hs
    rw [hs] at hb
    exact ⟨hb.1, fun g hg => hb.2 g hg hg.stop_le⟩
  refine ⟨first b, fun hf => ?_⟩
  cases hs : a.search t with
  | none => exact absurd hf.1 (h.search_eq_none_iff.1 hs b)
  | some b' => rw [(first b' hs).unique hf]

/-- Where a word stands, the next hit starts no later, and at the same place it is the longest word. -/
theorem Reads.search_of_longest? (h : a.Reads d) {t : Text} {p : Nat} {e : Entry α}
    (he : d.longest? (t.drop p) = some e) :
    ∃ b, a.search t = some b ∧ (b.start < p ∨ b.start = p ∧ p + e.word.length = b.stop) := by
  obtain ⟨hp, hv, -⟩ := Dictionary.longest?_eq_some_iff.1 he
  obtain ⟨g, hg, rfl, -, -⟩ := Dictionary.exists_stands hp hv
  cases hs : a.search t with
  | none => exact absurd hg (h.search_eq_none_iff.1 hs g)
  | some b =>
    have hf := h.search_eq_some_iff.1 hs
    refine ⟨b, rfl, ?_⟩
    rcases hf.2 g hg with hlt | ⟨heq, -⟩
    · exact .inl hlt
    · obtain ⟨e', he', -, -, hstop⟩ := hf.longest?
      rw [heq, he, Option.some.injEq] at he'
      subst he'
      exact .inr ⟨heq, heq ▸ hstop⟩

/-- Before the next hit there is no word. -/
theorem Reads.longest?_eq_none_of_search (h : a.Reads d) {t : Text} {p : Nat}
    (hp : ∀ b, a.search t = some b → p < b.start) : d.longest? (t.drop p) = none := by
  by_contra hne
  obtain ⟨e, he⟩ := Option.ne_none_iff_exists'.1 hne
  obtain ⟨b, hb, hle⟩ := h.search_of_longest? he
  have := hp b hb
  omega

/-! ## Cutting a text -/

/-- The segments of a text tell the same as reading it position by position. -/
theorem Reads.flatMap_segments (h : a.Reads d) {β : Type} (f : Segment α → List β)
    (hnil : f (.copied []) = []) (hcons : ∀ c u, f (.copied (c :: u)) = f (.copied [c]) ++ f (.copied u))
    (t : Text) : (a.segments t).flatMap f = (scanBy d.longest? t).flatMap f := by
  fun_induction segments a t with
  | case1 => simp
  | case2 c t hs =>
    -- without a hit no word stands anywhere, and all characters are copied
    rw [flatMap_scanBy_of_none f hnil hcons (c :: t).length (c :: t) fun p _ =>
      h.longest?_eq_none_of_search (by simp [hs])]
    simp
  | case3 c t b hs ih =>
    have hf := h.search_eq_some_iff.1 hs
    obtain ⟨e, he, hw, hv, hstop⟩ := hf.longest?
    have hlt := b.start_lt_stop
    have hne : (c :: t).drop b.start ≠ [] := by
      have := hf.1.stop_le
      rw [Ne, List.drop_eq_nil_iff]
      omega
    rw [flatMap_scanBy_of_none f hnil hcons b.start (c :: t) fun p hp => hf.longest?_eq_none hp,
      scanBy_of_some hne he, List.drop_drop, hstop, List.flatMap_cons, List.flatMap_cons,
      List.flatMap_cons, ih, hw, hv]

/-- The size of an automaton is the number of words. -/
theorem Reads.exists_words (h : a.Reads d) :
    ∃ words : List Text, words.Nodup ∧ (∀ w, w ∈ words ↔ (d.get? w).isSome) ∧ a.size = words.length := by
  refine ⟨a.trie.entries.map (·.word), h.sound.nodup_words, fun w => ?_, (List.length_map _).symm⟩
  rw [h.sound.mem_words_iff, h.find?, ← Option.isSome_map, Dictionary.map_entry?]

/-! ## Automata of words -/

theorem reads_ofTrie {t : Trie α} (h : t.Sound) {d : Dictionary α}
    (hd : ∀ w, (t.find? w).map (·.value) = d.get? w) : (ofTrie t).Reads d where
  sound := h
  eq_ofTrie := rfl
  find? w := Dictionary.eq_entry? (fun _ he => (h.find?_eq_some_iff.1 he).1.symm) (hd w)

theorem map_filterMap_ofPair? (pairs : List (Text × α)) :
    (pairs.filterMap Entry.ofPair?).map (fun e => (e.word, e.value)) =
      pairs.filter fun p => p.1 ≠ [] := by
  induction pairs with
  | nil => rfl
  | cons p pairs ih =>
    obtain ⟨s, a⟩ := p
    cases s with
    | nil => simpa [List.filterMap_cons, Entry.ofPair?] using ih
    | cons c s => simpa [List.filterMap_cons, Entry.ofPair?] using ih

/-- The automaton of pairs holds the words of their dictionary. -/
theorem reads_ofPairs (pairs : List (Text × α)) : (Automaton.ofPairs pairs).Reads (.ofPairs pairs) := by
  refine reads_ofTrie (Trie.sound_ofList _) fun w => ?_
  rw [Trie.find?_ofList, map_filterMap_ofPair?, OrderedMap.last?_filter (fun s => decide (s ≠ [])),
    Dictionary.get?_ofPairs]
  by_cases hw : w = [] <;> simp [hw]

end Automaton

end HanVariants
