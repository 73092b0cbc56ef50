import HanVariants.Proofs.Words.Links
/-!
# Links made level by level

An automaton can do with one link for each node, that of the longest proper suffix: the shorter
suffixes are found by following links further. Such links are made from the root outwards, in a pass
that visits the nodes level by level (`Pass.Ends`). The link of a child is looked for along the links
of the node it hangs from, which would not end if links led round in a circle (`Follows`). It always
ends, since every link leads to a node that is less deep and has its own link already; and the pass
ends with the links and outputs of the automaton (`Pass.ends_start`).
-/

namespace HanVariants

variable {α : Type}

namespace Trie.Sound

variable {t : Trie α}

theorem wordAt?_root (h : t.Sound) : t.wordAt? root = none := by
  cases he : t.wordAt? root with
  | none => rfl
  | some e =>
    have hnil : e.word = [] := h.walk?_inj (h.walk?_of_wordAt? root e he) rfl
    exact absurd hnil e.word_ne_nil

theorem lt_of_child? (h : t.Sound) {p n : Nat} {c : Char}
    (hc : t.child? p c = some n) : p < t.nodes.size ∧ n < t.nodes.size := by
  have ho := h.origin?_of_child? p c n hc
  have hn := lt_of_origin?_eq_some ho
  exact ⟨Nat.lt_trans (h.lt_of_origin? n p c ho) hn, hn⟩

theorem ne_root_of_depth (h : t.Sound) {n k : Nat} (hd : t.depth n = k + 1) :
    n ≠ root := by
  rintro rfl
  rw [h.depth_root] at hd
  cases hd

theorem eq_root_of_depth (h : t.Sound) {n : Nat} (hn : n < t.nodes.size)
    (hd : t.depth n = 0) : n = root := by
  by_contra hr
  obtain ⟨p, c, ho⟩ := h.exists_origin? n hn hr
  rw [h.depth_of_origin? n p c ho] at hd
  cases hd

/-- A node is numbered behind all nodes on its path. -/
theorem depth_le (h : t.Sound) {n : Nat} (hn : n < t.nodes.size) :
    t.depth n ≤ n := by
  induction n using Nat.strongRecOn with
  | _ n ih =>
    by_cases hr : n = root
    · rw [hr, h.depth_root]
      exact Nat.zero_le _
    · obtain ⟨p, c, ho⟩ := h.exists_origin? n hn hr
      have hlt := h.lt_of_origin? n p c ho
      have hp := ih p hlt (Nat.lt_trans hlt hn)
      rw [h.depth_of_origin? n p c ho]
      omega

theorem exists_walk?_cons (h : t.Sound) {n : Nat} (hn : n < t.nodes.size)
    (hr : n ≠ root) : ∃ c x, t.walk? root (c :: x) = some n := by
  obtain ⟨w, hw⟩ := h.exists_walk? n hn
  cases w with
  | nil => exact absurd (Option.some.inj hw).symm hr
  | cons c x => exact ⟨c, x, hw⟩

end Trie.Sound

namespace Automaton

open Trie

/-! ## The next shorter suffix -/

/-- The node of the longest proper suffix; from the root one does not get away. -/
def fallback (a : Automaton α) (n : Nat) : Nat := (a.link? n).getD root

section

variable {t : Trie α}

/-- What is known of a text without its first character is the link of its node, and the links of that. -/
theorem linksAt_of_walk? (h : t.Sound) {c : Char} {x : Text} {n : Nat}
    (hw : t.walk? root (c :: x) = some n) :
    (ofTrie t).linksAt n = (ofTrie t).run root x :: (ofTrie t).linksAt ((ofTrie t).run root x) := by
  have hlinks := cons_linksAt h hw
  rw [suffixNodes_cons, hw, Option.toList_some, List.singleton_append, List.cons.injEq] at hlinks
  rw [hlinks.2, run_cons_linksAt h]

theorem link?_of_walk? (h : t.Sound) {c : Char} {x : Text} {n : Nat}
    (hw : t.walk? root (c :: x) = some n) : (ofTrie t).link? n = some ((ofTrie t).run root x) := by
  rw [link?, linksAt_of_walk? h hw, List.head?_cons]

theorem fallback_of_walk? (h : t.Sound) {c : Char} {x : Text} {n : Nat}
    (hw : t.walk? root (c :: x) = some n) : (ofTrie t).fallback n = (ofTrie t).run root x := by
  rw [fallback, link?_of_walk? h hw, Option.getD_some]

theorem fallback_root (h : t.Sound) : (ofTrie t).fallback root = root := by
  rw [fallback, link?, linksAt_root h]
  rfl

/-- A node and its links: those that come after the first are the links of the first. -/
theorem linksAt_eq_cons (h : t.Sound) {n : Nat} (hn : n < t.nodes.size) (hr : n ≠ root) :
    (ofTrie t).linksAt n = (ofTrie t).fallback n :: (ofTrie t).linksAt ((ofTrie t).fallback n) := by
  obtain ⟨c, x, hw⟩ := h.exists_walk?_cons hn hr
  rw [fallback_of_walk? h hw, linksAt_of_walk? h hw]

/-- A link leads to a node that is less deep. -/
theorem depth_fallback_lt (h : t.Sound) {n : Nat} (hn : n < t.nodes.size) (hr : n ≠ root) :
    t.depth ((ofTrie t).fallback n) < t.depth n := by
  obtain ⟨c, x, hw⟩ := h.exists_walk?_cons hn hr
  obtain ⟨w, hrun⟩ := isLongestPath_run h x
  rw [fallback_of_walk? h hw, h.depth_walk? hrun.walk?, h.depth_walk? hw]
  exact Nat.lt_succ_of_le hrun.suffix.length_le

theorem fallback_lt (h : t.Sound) {n : Nat} (hn : n < t.nodes.size) :
    (ofTrie t).fallback n < t.nodes.size := by
  by_cases hr : n = root
  · rw [hr, fallback_root h]
    exact h.root_lt
  · obtain ⟨c, x, hw⟩ := h.exists_walk?_cons hn hr
    obtain ⟨w, hrun⟩ := isLongestPath_run h x
    rw [fallback_of_walk? h hw]
    exact h.walk?_lt hrun.walk?

theorem fallback_child_root (h : t.Sound) {c : Char} {n : Nat} (hc : t.child? root c = some n) :
    (ofTrie t).fallback n = root := by
  rw [fallback, link?, linksAt_child h hc, linksAt_root h]
  rfl

/-- The link of a child is where its character leads from the link of the node it hangs from. -/
theorem fallback_child (h : t.Sound) {p n : Nat} {c : Char} (hr : p ≠ root)
    (hc : t.child? p c = some n) :
    (ofTrie t).fallback n = (ofTrie t).step ((ofTrie t).fallback p) c := by
  have hp := (h.lt_of_child? hc).1
  rw [fallback, link?, linksAt_child h hc, linksAt_eq_cons h hp hr, List.head?_append,
    List.head?_filterMap, step, trie_ofTrie]
  cases ((ofTrie t).fallback p :: (ofTrie t).linksAt ((ofTrie t).fallback p)).findSome? (t.child? · c) <;>
    rfl

theorem output?_root (h : t.Sound) : (ofTrie t).output? root = none := by
  rw [output?_eq h h.root_lt, linksAt_root h, List.findSome?_cons, h.wordAt?_root]
  rfl

/-- A node where no word ends has the output of its link. -/
theorem output?_eq_or (h : t.Sound) {n : Nat} (hn : n < t.nodes.size) (hr : n ≠ root) :
    (ofTrie t).output? n = (t.wordAt? n).or ((ofTrie t).output? ((ofTrie t).fallback n)) := by
  rw [output?_eq h hn, output?_eq h (fallback_lt h hn), linksAt_eq_cons h hn hr, List.findSome?_cons]
  cases t.wordAt? n <;> rfl

/-! ## Following links -/

theorem step_of_child? {a : Automaton α} {n m : Nat} {c : Char} (hc : a.trie.child? n c = some m) :
    a.step n c = m := by
  rw [step, List.findSome?_cons, hc]
  rfl

theorem step_root (h : t.Sound) (c : Char) :
    (ofTrie t).step root c = (t.child? root c).getD root := by
  rw [step, linksAt_root h, trie_ofTrie, List.findSome?_cons]
  cases t.child? root c <;> rfl

/-- Where a node has no edge, a step goes as it goes from the link. -/
theorem step_fallback (h : t.Sound) {n : Nat} (hn : n < t.nodes.size) (hr : n ≠ root) {c : Char}
    (hc : t.child? n c = none) : (ofTrie t).step n c = (ofTrie t).step ((ofTrie t).fallback n) c := by
  rw [step, trie_ofTrie, List.findSome?_cons, hc, linksAt_eq_cons h hn hr]
  rfl

end

/-- Following links from the node `n`, until one has an edge for the character and at most up to the
root, ends at the node `m`. -/
inductive Follows (t : Trie α) (links : Array Nat) (c : Char) : Nat → Nat → Prop
  | stop {n : Nat} (h : n = root ∨ (t.child? n c).isSome) : Follows t links c n n
  | next {n m : Nat} (hr : n ≠ root) (hc : t.child? n c = none)
      (rest : Follows t links c (links.getD n root) m) : Follows t links c n m

section

variable {t : Trie α} {links : Array Nat}

theorem Follows.unique {c : Char} {n m m' : Nat} (h : Follows t links c n m)
    (h' : Follows t links c n m') : m = m' := by
  have stopped : ∀ {n}, n = root ∨ (t.child? n c).isSome → n ≠ root → t.child? n c ≠ none := by
    rintro n (h | h) hr hc
    · exact hr h
    · rw [hc] at h
      cases h
  induction h with
  | stop h =>
    cases h' with
    | stop => rfl
    | next hr hc => exact absurd hc (stopped h hr)
  | next hr hc rest ih =>
    cases h' with
    | stop h => exact absurd hc (stopped h hr)
    | next _ _ rest' => exact ih rest'

/-- Following links ends, and leads where a step leads, if the links of all nodes up to this depth are
there. -/
theorem exists_follows (h : t.Sound) {n : Nat} (hn : n < t.nodes.size)
    (hlinks : ∀ m, m < t.nodes.size → t.depth m ≤ t.depth n → links.getD m root = (ofTrie t).fallback m)
    (c : Char) : ∃ m, Follows t links c n m ∧ (t.child? m c).getD root = (ofTrie t).step n c := by
  -- the next node is less deep, so the induction is on the depth
  induction hd : t.depth n using Nat.strongRecOn generalizing n with
  | _ d ih =>
    subst hd
    by_cases hr : n = root
    · exact ⟨n, .stop (.inl hr), by rw [hr, step_root h]⟩
    · cases hc : t.child? n c with
      | some m =>
        refine ⟨n, .stop (.inr (by rw [hc]; rfl)), ?_⟩
        rw [hc, step_of_child? (a := ofTrie t) hc]
        rfl
      | none =>
        have hlt := depth_fallback_lt h hn hr
        obtain ⟨m, hm, hstep⟩ :=
          ih _ hlt (fallback_lt h hn) (fun m hm hle => hlinks m hm (by omega)) rfl
        rw [← hlinks n hn (Nat.le_refl _)] at hm
        exact ⟨m, .next hr hc hm, hstep.trans (step_fallback h hn hr hc).symm⟩

end

/-! ## The pass -/

/-- What a pass has made so far, and the nodes whose children it has still to visit. -/
structure Pass (α : Type) where
  links : Array Nat
  outputs : Array (Option (Entry α))
  queue : List Nat

/-- For each node the edges from it are listed, in any order. -/
def ListsEdges (t : Trie α) (edges : Nat → List (Char × Nat)) : Prop :=
  ∀ n c m, (c, m) ∈ edges n ↔ t.child? n c = some m

/-- The edges of a node, in the order of their characters. -/
def edgesOf (t : Trie α) (n : Nat) : List (Char × Nat) :=
  (t.nodes[n]?.map (·.children.toList)).getD []

theorem listsEdges_edgesOf (t : Trie α) : ListsEdges t (edgesOf t) := by
  intro n c m
  unfold edgesOf Trie.child?
  cases t.nodes[n]? with
  | none => simp
  | some node => simp [Std.TreeMap.mem_toList_iff_getElem?_eq_some]

def children (edges : Nat → List (Char × Nat)) (n : Nat) : List Nat := (edges n).map (·.2)

theorem ListsEdges.mem_children_iff {t : Trie α} {edges : Nat → List (Char × Nat)}
    (he : ListsEdges t edges) {n m : Nat} : m ∈ children edges n ↔ ∃ c, t.child? n c = some m := by
  simp [children, he n]

namespace Pass

/-- At first every link leads to the root, and each node puts out the word that ends there. The children
of the root need no other link. -/
def start (t : Trie α) (edges : Nat → List (Char × Nat)) : Pass α where
  links := Array.replicate t.nodes.size root
  outputs := t.nodes.map (·.word?)
  queue := children edges root

/-- Gives a child its link, and the output of the link if no word ends at the child. The child has then
children to be visited. -/
def give (p : Pass α) (u link : Nat) : Pass α where
  links := p.links.setIfInBounds u link
  outputs := p.outputs.modify u (·.or (p.outputs.getD link none))
  queue := p.queue ++ [u]

/-- The children of `r` at the ends of these edges are visited one after the other. -/
inductive Visits (t : Trie α) (r : Nat) : List (Char × Nat) → Pass α → Pass α → Prop
  | nil {p : Pass α} : Visits t r [] p p
  | cons {c : Char} {u m : Nat} {es : List (Char × Nat)} {p p' : Pass α}
      (follows : Follows t p.links c (p.links.getD r root) m)
      (rest : Visits t r es (p.give u ((t.child? m c).getD root)) p') : Visits t r ((c, u) :: es) p p'

/-- The children of the nodes in the queue are visited until it is empty. -/
inductive Ends (t : Trie α) (edges : Nat → List (Char × Nat)) : Pass α → Pass α → Prop
  | done {p : Pass α} (h : p.queue = []) : Ends t edges p p
  | next {p p₁ p' : Pass α} {r : Nat} {queue : List Nat} (h : p.queue = r :: queue)
      (visits : Visits t r (edges r) { p with queue } p₁) (rest : Ends t edges p₁ p') :
      Ends t edges p p'

theorem Visits.unique {t : Trie α} {r : Nat} {es : List (Char × Nat)} {p p' p'' : Pass α}
    (h : Visits t r es p p') (h' : Visits t r es p p'') : p' = p'' := by
  induction h with
  | nil =>
    cases h'
    rfl
  | cons follows rest ih =>
    cases h' with
    | cons follows' rest' =>
      cases follows.unique follows'
      exact ih rest'

theorem Ends.unique {t : Trie α} {edges : Nat → List (Char × Nat)} {p p' p'' : Pass α}
    (h : Ends t edges p p') (h' : Ends t edges p p'') : p' = p'' := by
  induction h with
  | done h =>
    cases h' with
    | done => rfl
    | next hq => cases h.symm.trans hq
  | next h visits rest ih =>
    cases h' with
    | done hq => cases h.symm.trans hq
    | next hq visits' rest' =>
      cases h.symm.trans hq
      cases visits.unique visits'
      exact ih rest'

/-- The pass has given this node its link and its output. -/
structure Settled (t : Trie α) (p : Pass α) (n : Nat) : Prop where
  link : p.links[n]? = some ((ofTrie t).fallback n)
  output : p.outputs[n]? = some ((ofTrie t).output? n)

/-- Every node has a link, and puts out the word that ends there or the output it is to have. -/
structure Valid (t : Trie α) (p : Pass α) : Prop where
  size_links : p.links.size = t.nodes.size
  output : ∀ n, n < t.nodes.size →
    p.outputs[n]? = some (t.wordAt? n) ∨ p.outputs[n]? = some ((ofTrie t).output? n)

/-- From one state of the pass to another the nodes `us` are settled and come into the queue. -/
structure Settles (t : Trie α) (us : List Nat) (p p' : Pass α) : Prop where
  queue : p'.queue = p.queue ++ us
  valid : p'.Valid t
  settled : ∀ u ∈ us, p'.Settled t u
  kept : ∀ n, p.Settled t n → p'.Settled t n

variable {t : Trie α} {p : Pass α}

theorem Settled.getD_links {n : Nat} (hp : p.Settled t n) :
    p.links.getD n root = (ofTrie t).fallback n := by
  rw [Array.getD_eq_getD_getElem?, hp.link, Option.getD_some]

theorem Settled.getD_outputs {n : Nat} (hp : p.Settled t n) :
    p.outputs.getD n none = (ofTrie t).output? n := by
  rw [Array.getD_eq_getD_getElem?, hp.output, Option.getD_some]

theorem Settled.requeue {n : Nat} (hp : p.Settled t n) (queue : List Nat) :
    Settled t { p with queue } n := ⟨hp.link, hp.output⟩

theorem Valid.requeue (hv : p.Valid t) (queue : List Nat) : Valid t { p with queue } :=
  ⟨hv.size_links, hv.output⟩

theorem Settles.refl (hv : p.Valid t) : Settles t [] p p :=
  ⟨by rw [List.append_nil], hv, by simp, fun _ h => h⟩

theorem Settles.trans {us us' : List Nat} {p' p'' : Pass α} (h : Settles t us p p')
    (h' : Settles t us' p' p'') : Settles t (us ++ us') p p'' where
  queue := by rw [h'.queue, h.queue, List.append_assoc]
  valid := h'.valid
  settled := List.forall_mem_append.2 ⟨fun u hu => h'.kept u (h.settled u hu), h'.settled⟩
  kept n hn := h'.kept n (h.kept n hn)

/-- Settling does not look at the queue. -/
theorem Settles.requeue {us : List Nat} {p' : Pass α} (h : Settles t us p p') (queue : List Nat) :
    Settles t us { p with queue } { p' with queue := queue ++ us } where
  queue := rfl
  valid := h.valid.requeue _
  settled u hu := (h.settled u hu).requeue _
  kept n hn := (h.kept n (hn.requeue p.queue)).requeue _

/-- Visiting a child settles it, if all nodes up to the depth of the one it hangs from are settled. -/
theorem exists_settles_give (h : t.Sound) (hv : p.Valid t) {r u : Nat} {c : Char} (hr : r ≠ root)
    (hc : t.child? r c = some u)
    (hp : ∀ m, m < t.nodes.size → t.depth m ≤ t.depth r → p.Settled t m) :
    ∃ m, Follows t p.links c (p.links.getD r root) m ∧
      Settles t [u] p (p.give u ((t.child? m c).getD root)) := by
  obtain ⟨hrn, hun⟩ := h.lt_of_child? hc
  have hdepth := h.depth_of_origin? u r c (h.origin?_of_child? r c u hc)
  have hur : u ≠ root := h.ne_root_of_depth hdepth
  -- the link is looked for among nodes that are less deep than `r`
  have hlt := depth_fallback_lt h hrn hr
  obtain ⟨m, hm, hstep⟩ := exists_follows h (fallback_lt h hrn)
    (fun m hm hle => (hp m hm (by omega)).getD_links) c
  refine ⟨m, (hp r hrn (Nat.le_refl _)).getD_links.symm ▸ hm, ?_⟩
  rw [hstep, ← fallback_child h hr hc]
  -- and is no deeper than `r`, so its output is there already
  have houtput : p.outputs.getD ((ofTrie t).fallback u) none =
      (ofTrie t).output? ((ofTrie t).fallback u) := by
    have hlt := depth_fallback_lt h hun hur
    exact (hp _ (fallback_lt h hun) (by omega)).getD_outputs
  have hsettled : (p.give u ((ofTrie t).fallback u)).Settled t u := by
    constructor
    · exact Array.getElem?_setIfInBounds_self_of_lt (by rw [hv.size_links]; exact hun)
    · rw [give, Array.getElem?_modify, if_pos rfl, houtput]
      rcases hv.output u hun with hu | hu
      · rw [hu, output?_eq_or h hun hur, Option.map_some]
      · rw [hu, output?_eq_or h hun hur, Option.map_some, Option.or_assoc, Option.or_self]
  have hother : ∀ n, u ≠ n → (p.give u ((ofTrie t).fallback u)).links[n]? = p.links[n]? ∧
      (p.give u ((ofTrie t).fallback u)).outputs[n]? = p.outputs[n]? := fun n e =>
    ⟨Array.getElem?_setIfInBounds_ne e, by rw [give, Array.getElem?_modify, if_neg e]⟩
  refine ⟨rfl, ⟨?_, fun n hn => ?_⟩, List.forall_mem_singleton.2 hsettled, fun n hset => ?_⟩
  · rw [give, Array.size_setIfInBounds, hv.size_links]
  · by_cases e : u = n
    · exact .inr (e ▸ hsettled.output)
    · rw [(hother n e).2]
      exact hv.output n hn
  · by_cases e : u = n
    · exact e ▸ hsettled
    · exact ⟨(hother n e).1.trans hset.link, (hother n e).2.trans hset.output⟩

/-- So it is for all children of a node, one after the other. -/
theorem exists_visits (h : t.Sound) {r : Nat} (hr : r ≠ root) {es : List (Char × Nat)}
    (hes : ∀ e ∈ es, t.child? r e.1 = some e.2) {p : Pass α} (hv : p.Valid t)
    (hp : ∀ m, m < t.nodes.size → t.depth m ≤ t.depth r → p.Settled t m) :
    ∃ p', Visits t r es p p' ∧ Settles t (es.map (·.2)) p p' := by
  induction es generalizing p with
  | nil => exact ⟨p, .nil, .refl hv⟩
  | cons e es ih =>
    obtain ⟨he, hes⟩ := List.forall_mem_cons.1 hes
    obtain ⟨m, hm, hfirst⟩ := exists_settles_give h hv hr he hp
    obtain ⟨p', hvisits, hrest⟩ := ih hes hfirst.valid fun m hm hle => hfirst.kept m (hp m hm hle)
    exact ⟨p', .cons hm hvisits, hfirst.trans hrest⟩

/-! ## Level by level -/

/-- The nodes of a depth. -/
def level (edges : Nat → List (Char × Nat)) : Nat → List Nat
  | 0 => [root]
  | k + 1 => (level edges k).flatMap (children edges)

variable {edges : Nat → List (Char × Nat)}

theorem mem_level_iff (h : t.Sound) (he : ListsEdges t edges) {k n : Nat} :
    n ∈ level edges k ↔ n < t.nodes.size ∧ t.depth n = k := by
  induction k generalizing n with
  | zero =>
    rw [level, List.mem_singleton]
    constructor
    · rintro rfl
      exact ⟨h.root_lt, h.depth_root⟩
    · exact fun ⟨hn, hd⟩ => h.eq_root_of_depth hn hd
  | succ k ih =>
    simp only [level, List.mem_flatMap, he.mem_children_iff, ih]
    constructor
    · rintro ⟨r, ⟨-, hd⟩, c, hc⟩
      refine ⟨(h.lt_of_child? hc).2, ?_⟩
      rw [h.depth_of_origin? n r c (h.origin?_of_child? r c n hc), hd]
    · rintro ⟨hn, hd⟩
      obtain ⟨r, c, ho⟩ := h.exists_origin? n hn (h.ne_root_of_depth hd)
      rw [h.depth_of_origin? n r c ho, Nat.succ_inj] at hd
      exact ⟨r, ⟨Nat.lt_trans (h.lt_of_origin? n r c ho) hn, hd⟩, c, h.child?_of_origin? n r c ho⟩

/-- Where the nodes of one depth come first in the queue, the pass goes on once it has settled all of
their children. -/
theorem exists_settles_children (h : t.Sound) (he : ListsEdges t edges) {k : Nat} {rs rest : List Nat}
    (hrs : ∀ r ∈ rs, r ≠ root ∧ t.depth r = k) {p : Pass α} (hq : p.queue = rs ++ rest) (hv : p.Valid t)
    (hp : ∀ m, m < t.nodes.size → t.depth m ≤ k → p.Settled t m) :
    ∃ p', (∀ q, Ends t edges p' q → Ends t edges p q) ∧
      Settles t (rs.flatMap (children edges)) { p with queue := rest } p' := by
  induction rs generalizing p rest with
  | nil =>
    rw [List.nil_append] at hq
    exact ⟨p, fun _ hends => hends, hq ▸ .refl hv⟩
  | cons r rs ih =>
    obtain ⟨⟨hr, rfl⟩, hrs⟩ := List.forall_mem_cons.1 hrs
    obtain ⟨p₁, hvisits, hfirst⟩ := exists_visits h hr (fun e => (he r e.1 e.2).1)
      (hv.requeue (rs ++ rest)) fun m hm hle => (hp m hm hle).requeue _
    have hq₁ : p₁.queue = rs ++ (rest ++ children edges r) := by
      rw [hfirst.queue, List.append_assoc]
      rfl
    obtain ⟨p', hends, hrest⟩ := ih hrs hq₁ hfirst.valid fun m hm hle =>
      hfirst.kept m ((hp m hm hle).requeue _)
    exact ⟨p', fun q hq' => .next hq hvisits (hends q hq'),
      List.flatMap_cons ▸ (hfirst.requeue rest).trans hrest⟩

/-- From one level on the pass ends, and gives every node its link and its output. -/
theorem exists_ends (h : t.Sound) (he : ListsEdges t edges) {k : Nat} {p : Pass α} (hq : p.queue = level edges (k + 1))
    (hv : p.Valid t) (hp : ∀ m, m < t.nodes.size → t.depth m ≤ k + 1 → p.Settled t m) :
    ∃ p', Ends t edges p p' ∧ ∀ n, n < t.nodes.size → p'.Settled t n := by
  -- no node is as deep as there are nodes, so the induction is on how far the level is from there
  induction hj : t.nodes.size - (k + 1) generalizing k p with
  | zero =>
    have hnil : level edges (k + 1) = [] := by
      refine List.eq_nil_iff_forall_not_mem.2 fun n hn => ?_
      obtain ⟨hn, hd⟩ := (mem_level_iff h he).1 hn
      have hle := h.depth_le hn
      omega
    refine ⟨p, .done (hq.trans hnil), fun n hn => hp n hn ?_⟩
    have hle := h.depth_le hn
    omega
  | succ j ih =>
    have hlevel : ∀ r ∈ level edges (k + 1), r ≠ root ∧ t.depth r = k + 1 := by
      intro r hr
      have hd := ((mem_level_iff h he).1 hr).2
      exact ⟨h.ne_root_of_depth hd, hd⟩
    obtain ⟨p₁, hends, hnext⟩ :=
      exists_settles_children h he hlevel (hq.trans (List.append_nil _).symm) hv hp
    have hp₁ : ∀ m, m < t.nodes.size → t.depth m ≤ k + 1 + 1 → p₁.Settled t m := by
      intro m hm hle
      rcases Nat.le_succ_iff.1 hle with hle | hd
      · exact hnext.kept m ((hp m hm hle).requeue _)
      · exact hnext.settled m ((mem_level_iff h he).2 ⟨hm, hd⟩)
    obtain ⟨p', hrest, hp'⟩ := ih hnext.queue hnext.valid hp₁ (by omega)
    exact ⟨p', hends p' hrest, hp'⟩

theorem valid_start (t : Trie α) (edges : Nat → List (Char × Nat)) : (start t edges).Valid t where
  size_links := Array.size_replicate
  output n hn := .inl (by simp [start, wordAt?, Array.getElem?_eq_getElem hn])

/-- At first the root and its children are settled. -/
theorem settled_start (h : t.Sound) {n : Nat} (hn : n < t.nodes.size) (hd : t.depth n ≤ 1) :
    (start t edges).Settled t n := by
  have hlink : (start t edges).links[n]? = some root := by simp [start, hn]
  have hword : (start t edges).outputs[n]? = some (t.wordAt? n) := by
    simp [start, wordAt?, Array.getElem?_eq_getElem hn]
  by_cases hr : n = root
  · subst hr
    exact ⟨by rw [hlink, fallback_root h], by rw [hword, h.wordAt?_root, output?_root h]⟩
  · obtain ⟨r, c, ho⟩ := h.exists_origin? n hn hr
    have hlt := h.lt_of_origin? n r c ho
    rw [h.depth_of_origin? n r c ho] at hd
    obtain rfl : r = root := h.eq_root_of_depth (Nat.lt_trans hlt hn) (by omega)
    have hfallback := fallback_child_root h (h.child?_of_origin? n root c ho)
    refine ⟨by rw [hlink, hfallback], ?_⟩
    rw [hword, output?_eq_or h hn hr, hfallback, output?_root h, Option.or_none]

end Pass

/-! ## Reading with the links made -/

/-- Reading a text leads from one node to another, with one link for each node. -/
inductive Leads (t : Trie α) (links : Array Nat) : Nat → Text → Nat → Prop
  | nil {n : Nat} : Leads t links n [] n
  | cons {n m n' : Nat} {c : Char} {x : Text} (follows : Follows t links c n m)
      (rest : Leads t links ((t.child? m c).getD root) x n') : Leads t links n (c :: x) n'

theorem Leads.unique {t : Trie α} {links : Array Nat} {n m m' : Nat} {x : Text}
    (h : Leads t links n x m) (h' : Leads t links n x m') : m = m' := by
  induction h with
  | nil =>
    cases h'
    rfl
  | cons follows rest ih =>
    cases h' with
    | cons follows' rest' =>
      cases follows.unique follows'
      exact ih rest'

theorem step_lt {t : Trie α} (h : t.Sound) (n : Nat) (c : Char) :
    (ofTrie t).step n c < t.nodes.size := by
  rw [step, trie_ofTrie]
  cases hm : (n :: (ofTrie t).linksAt n).findSome? (t.child? · c) with
  | none => exact h.root_lt
  | some m =>
    obtain ⟨r, -, hc⟩ := List.exists_of_findSome?_eq_some hm
    exact (h.lt_of_child? hc).2

theorem leads_run {t : Trie α} (h : t.Sound) {links : Array Nat}
    (hlinks : ∀ m, m < t.nodes.size → links.getD m root = (ofTrie t).fallback m) (x : Text) {n : Nat}
    (hn : n < t.nodes.size) : Leads t links n x ((ofTrie t).run n x) := by
  induction x generalizing n with
  | nil => exact .nil
  | cons c x ih =>
    obtain ⟨m, hm, hstep⟩ := exists_follows h hn (fun m hm _ => hlinks m hm) c
    refine .cons hm ?_
    rw [hstep]
    exact ih (step_lt h n c)

namespace Pass

/-- The pass has given the nodes the links and outputs of the automaton, and with these links one reads
as the automaton does. -/
structure Makes (p : Pass α) (a : Automaton α) : Prop where
  link : ∀ n, n < a.trie.nodes.size → p.links[n]? = some (a.fallback n)
  output : ∀ n, n < a.trie.nodes.size → p.outputs[n]? = some (a.output? n)
  /-- Following the links ends. -/
  exists_follows : ∀ n c, n < a.trie.nodes.size → ∃ m, Follows a.trie p.links c n m
  leads_iff : ∀ x n, Leads a.trie p.links root x n ↔ n = a.run root x

/-- In whatever order it comes to the children of a node, the pass over a trie ends and makes its
automaton. -/
theorem ends_start {t : Trie α} (h : t.Sound) {edges : Nat → List (Char × Nat)}
    (he : ListsEdges t edges) :
    (∃ p, Ends t edges (start t edges) p) ∧
      ∀ p, Ends t edges (start t edges) p → p.Makes (ofTrie t) := by
  obtain ⟨p, hends, hp⟩ :=
    exists_ends h he (k := 0) (by simp [start, level]) (valid_start t edges) fun _ => settled_start h
  have hlinks : ∀ m, m < t.nodes.size → p.links.getD m root = (ofTrie t).fallback m := fun m hm =>
    (hp m hm).getD_links
  refine ⟨⟨p, hends⟩, fun p' hends' => ?_⟩
  rw [← hends.unique hends']
  refine ⟨fun n hn => (hp n hn).link, fun n hn => (hp n hn).output, fun n c hn => ?_, fun x n => ?_⟩
  · obtain ⟨m, hm, -⟩ := exists_follows h hn (fun m hm _ => hlinks m hm) c
    exact ⟨m, hm⟩
  · constructor
    · exact fun hleads => hleads.unique (leads_run h hlinks x h.root_lt)
    · rintro rfl
      exact leads_run h hlinks x h.root_lt

end Pass

end Automaton

end HanVariants
