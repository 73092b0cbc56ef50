import HanVariants.OrderedMap
import Mathlib.Data.List.Basic
/-!
# The last entry of a key

Inserting entries one after the other leaves for each key what its last entry says
(`get?_ofList`). Where no key comes twice, this is the only entry it has (`last?_eq_some_iff`), and
the map lists the entries as they were inserted (`toList_ofList`).
-/

namespace HanVariants.OrderedMap

variable {κ α : Type} [DecidableEq κ]

/-- What the last entry of a key says. -/
def last? (k : κ) : List (κ × α) → Option α
  | [] => none
  | (k', a) :: entries => (last? k entries).or (if k' = k then some a else none)

theorem last?_append (k : κ) (xs ys : List (κ × α)) :
    last? k (xs ++ ys) = (last? k ys).or (last? k xs) := by
  induction xs with
  | nil => simp [last?]
  | cons e xs ih => rw [List.cons_append, last?, last?, ih, Option.or_assoc]

theorem last?_eq_none_iff {k : κ} {entries : List (κ × α)} :
    last? k entries = none ↔ k ∉ entries.map (·.1) := by
  induction entries with
  | nil => simp [last?]
  | cons e entries ih =>
    rw [last?, Option.or_eq_none_iff, ih, List.map_cons, List.mem_cons, not_or, and_comm]
    simp [eq_comm]

theorem last?_filter (p : κ → Bool) (k : κ) (entries : List (κ × α)) :
    last? k (entries.filter fun e => p e.1) = if p k then last? k entries else none := by
  induction entries with
  | nil => simp [last?]
  | cons e entries ih =>
    obtain ⟨k', a⟩ := e
    by_cases e : k' = k
    · subst e
      by_cases h : p k' <;> simp [h, last?, ih]
    · by_cases h : p k' <;> simp [h, last?, ih, e]

theorem last?_eq_some_iff {entries : List (κ × α)} (h : (entries.map (·.1)).Nodup) {k : κ} {a : α} :
    last? k entries = some a ↔ (k, a) ∈ entries := by
  induction entries with
  | nil => simp [last?]
  | cons e entries ih =>
    obtain ⟨k', a'⟩ := e
    obtain ⟨hk, hn⟩ := List.nodup_cons.1 h
    rw [last?, Option.or_eq_some_iff, ih hn, last?_eq_none_iff, List.mem_cons, Prod.mk.injEq]
    by_cases e : k' = k
    · subst e
      have : (k', a) ∉ entries := fun hm => hk (List.mem_map.2 ⟨_, hm, rfl⟩)
      simp [this, hk, eq_comm]
    · simp [e, Ne.symm e]

theorem mem_of_last?_eq_some {entries : List (κ × α)} {k : κ} {a : α} (h : last? k entries = some a) :
    (k, a) ∈ entries := by
  induction entries with
  | nil => cases h
  | cons e entries ih =>
    rw [last?, Option.or_eq_some_iff] at h
    rcases h with h | ⟨-, h⟩
    · exact List.mem_cons_of_mem _ (ih h)
    · split at h
      · next hk =>
        cases h
        rw [← hk]
        exact List.mem_cons_self
      · cases h

theorem last?_eq_getLast? (k : κ) (entries : List (κ × α)) :
    last? k entries = (entries.filter (·.1 = k)).getLast?.map (·.2) := by
  induction entries with
  | nil => rfl
  | cons e entries ih =>
    obtain ⟨k', a⟩ := e
    rw [last?, ih]
    by_cases hk : k' = k
    · rw [List.filter_cons, if_pos (decide_eq_true hk), List.getLast?_cons, if_pos hk]
      cases (entries.filter (·.1 = k)).getLast? <;> rfl
    · rw [List.filter_cons, if_neg fun h => hk (of_decide_eq_true h), if_neg hk, Option.or_none]

theorem last?_eq_some_of_forall {entries : List (κ × α)} {k : κ} {a : α} (h : ∀ p ∈ entries, p.2 = a)
    (hk : k ∈ entries.map (·.1)) : last? k entries = some a := by
  cases hl : last? k entries with
  | none => exact absurd hk (last?_eq_none_iff.1 hl)
  | some a' => exact congrArg some (h (k, a') (mem_of_last?_eq_some hl))

theorem lookup_eq_last? {entries : List (κ × α)} (h : (entries.map (·.1)).Nodup) (k : κ) :
    entries.lookup k = last? k entries := by
  induction entries with
  | nil => rfl
  | cons e entries ih =>
    obtain ⟨k', a⟩ := e
    obtain ⟨hk, hn⟩ := List.nodup_cons.1 h
    rw [List.lookup_cons, last?]
    by_cases e : k = k'
    · subst e
      simp [last?_eq_none_iff.2 hk]
    · simp [beq_false_of_ne e, Ne.symm e, ih hn]

theorem last?_filter_of_nodup {entries : List (κ × α)} (h : (entries.map (·.1)).Nodup) (p : κ × α → Bool)
    (k : κ) : last? k (entries.filter p) = (last? k entries).filter fun a => p (k, a) := by
  apply Option.ext
  intro a
  rw [last?_eq_some_iff (h.sublist (List.filter_sublist.map _)), List.mem_filter,
    Option.filter_eq_some_iff, last?_eq_some_iff h]

theorem get?_eq_last? {m : OrderedMap κ α} (h : m.keys.Nodup) (k : κ) : m.get? k = last? k m.toList :=
  lookup_eq_last? h k

theorem get?_eq_some_iff {m : OrderedMap κ α} (h : m.keys.Nodup) {k : κ} {a : α} :
    m.get? k = some a ↔ (k, a) ∈ m.toList := by
  rw [get?_eq_last? h]
  exact last?_eq_some_iff h

omit [DecidableEq κ] in
theorem nodup_keys_filter {m : OrderedMap κ α} (h : m.keys.Nodup) (p : κ × α → Bool) :
    (OrderedMap.mk (m.toList.filter p)).keys.Nodup :=
  h.sublist (List.filter_sublist.map _)

theorem get?_filter {m : OrderedMap κ α} (h : m.keys.Nodup) (p : κ × α → Bool) (k : κ) :
    (OrderedMap.mk (m.toList.filter p)).get? k = (m.get? k).filter fun a => p (k, a) := by
  rw [get?_eq_last? (nodup_keys_filter h p), get?_eq_last? h, last?_filter_of_nodup h]

theorem insertMany_append (m : OrderedMap κ α) (xs ys : List (κ × α)) :
    m.insertMany (xs ++ ys) = (m.insertMany xs).insertMany ys := List.foldl_append

theorem get?_insertMany (m : OrderedMap κ α) (entries : List (κ × α)) (k : κ) :
    (m.insertMany entries).get? k = (last? k entries).or (m.get? k) := by
  induction entries generalizing m with
  | nil => rfl
  | cons e entries ih =>
    obtain ⟨k', a⟩ := e
    rw [show m.insertMany ((k', a) :: entries) = (m.insert k' a).insertMany entries from rfl, ih,
      get?_insert, last?, Option.or_assoc]
    congr 1
    by_cases e : k = k'
    · simp [e]
    · simp [e, Ne.symm e]

/-- The last entry of a key counts. -/
theorem get?_ofList (entries : List (κ × α)) (k : κ) : (ofList entries).get? k = last? k entries := by
  rw [ofList, get?_insertMany, get?_empty, Option.or_none]

theorem isSome_get?_ofList {entries : List (κ × α)} {k : κ} :
    ((ofList entries).get? k).isSome ↔ k ∈ entries.map (·.1) := by
  rw [get?_ofList, ← not_iff_not, ← last?_eq_none_iff]
  simp

/-! ## The entries of a map -/

theorem mem_insertEntry {k : κ} {a : α} {entries : List (κ × α)} {p : κ × α}
    (h : p ∈ insertEntry k a entries) : p = (k, a) ∨ p ∈ entries := by
  induction entries with
  | nil => exact .inl (List.mem_singleton.1 h)
  | cons e entries ih =>
    obtain ⟨k', a'⟩ := e
    unfold insertEntry at h
    split at h
    · exact (List.mem_cons.1 h).imp_right (List.mem_cons_of_mem _)
    · rcases List.mem_cons.1 h with rfl | h
      · exact .inr List.mem_cons_self
      · exact (ih h).imp_right (List.mem_cons_of_mem _)

theorem mem_insertMany {m : OrderedMap κ α} {entries : List (κ × α)} {p : κ × α}
    (h : p ∈ (m.insertMany entries).toList) : p ∈ m.toList ∨ p ∈ entries := by
  induction entries generalizing m with
  | nil => exact .inl h
  | cons e entries ih =>
    rcases ih h with h | h
    · rcases mem_insertEntry h with rfl | h
      · exact .inr List.mem_cons_self
      · exact .inl h
    · exact .inr (List.mem_cons_of_mem _ h)

/-- A map has no entry that was not inserted. -/
theorem mem_ofList {entries : List (κ × α)} {p : κ × α} (h : p ∈ (ofList entries).toList) :
    p ∈ entries := by
  rcases mem_insertMany h with h | h
  · cases h
  · exact h

theorem insertEntry_of_not_mem {k : κ} {a : α} {entries : List (κ × α)} (h : k ∉ entries.map (·.1)) :
    insertEntry k a entries = entries ++ [(k, a)] := by
  induction entries with
  | nil => rfl
  | cons e entries ih =>
    obtain ⟨k', a'⟩ := e
    rw [List.map_cons, List.mem_cons, not_or] at h
    rw [insertEntry, if_neg (Ne.symm h.1), ih h.2, List.cons_append]

theorem toList_insertMany {m : OrderedMap κ α} {entries : List (κ × α)}
    (h : (m.keys ++ entries.map (·.1)).Nodup) : (m.insertMany entries).toList = m.toList ++ entries := by
  induction entries generalizing m with
  | nil => exact (List.append_nil _).symm
  | cons e entries ih =>
    obtain ⟨k, a⟩ := e
    have hk : k ∉ m.keys := fun hm => (List.nodup_append.1 h).2.2 k hm k List.mem_cons_self rfl
    have hm : (m.insert k a).toList = m.toList ++ [(k, a)] := insertEntry_of_not_mem hk
    have hkeys : (m.insert k a).keys = m.keys ++ [k] := by rw [keys_insert, if_neg hk]
    refine (ih ?_).trans ?_
    · rwa [hkeys, List.append_assoc]
    · rw [hm, List.append_assoc, List.singleton_append]

/-- Where no key comes twice, the entries stay as they were inserted. -/
theorem toList_ofList {entries : List (κ × α)} (h : (entries.map (·.1)).Nodup) :
    (ofList entries).toList = entries :=
  toList_insertMany (m := {}) h

end HanVariants.OrderedMap
