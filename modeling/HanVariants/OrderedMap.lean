/-!
# Maps that keep the order of insertion

A map lists its entries in the order in which their keys first came. Inserting a key again changes
its value and keeps its place. `get?_insert` says what a map holds after an insertion and
`nodup_keys_insert` that no key comes twice.
-/

namespace HanVariants

structure OrderedMap (κ α : Type) where
  toList : List (κ × α) := []
deriving DecidableEq, Repr

namespace OrderedMap

variable {κ α : Type} [DecidableEq κ]

instance : Inhabited (OrderedMap κ α) := ⟨{}⟩

def keys (m : OrderedMap κ α) : List κ := m.toList.map (·.1)

def values (m : OrderedMap κ α) : List α := m.toList.map (·.2)

def size (m : OrderedMap κ α) : Nat := m.toList.length

def isEmpty (m : OrderedMap κ α) : Bool := m.toList.isEmpty

def get? (m : OrderedMap κ α) (k : κ) : Option α := m.toList.lookup k

/-- The entries with the value at `k` replaced, or with `(k, a)` at the end. -/
def insertEntry (k : κ) (a : α) : List (κ × α) → List (κ × α)
  | [] => [(k, a)]
  | (k', a') :: entries => if k' = k then (k, a) :: entries else (k', a') :: insertEntry k a entries

def insert (m : OrderedMap κ α) (k : κ) (a : α) : OrderedMap κ α := ⟨insertEntry k a m.toList⟩

/-- The entries inserted one after the other. -/
def insertMany (m : OrderedMap κ α) (entries : List (κ × α)) : OrderedMap κ α :=
  entries.foldl (fun m (k, a) => m.insert k a) m

/-- The map of a list of entries: the first insertion gives the place, the last one the value. -/
def ofList (entries : List (κ × α)) : OrderedMap κ α := insertMany {} entries

/-! ## What an insertion changes -/

@[simp]
theorem get?_empty (k : κ) : ({} : OrderedMap κ α).get? k = none := rfl

theorem lookup_insertEntry (k k' : κ) (a : α) (entries : List (κ × α)) :
    (insertEntry k a entries).lookup k' = if k' = k then some a else entries.lookup k' := by
  induction entries with
  | nil =>
    by_cases h : k' = k
    · simp [insertEntry, h]
    · simp [insertEntry, List.lookup_cons, beq_false_of_ne h, h]
  | cons e entries ih =>
    obtain ⟨k₀, a₀⟩ := e
    by_cases h₀ : k₀ = k
    · subst h₀
      by_cases h : k' = k₀
      · simp [insertEntry, h]
      · simp [insertEntry, List.lookup_cons, beq_false_of_ne h, h]
    · by_cases h : k' = k₀
      · subst h
        simp [insertEntry, h₀]
      · simp [insertEntry, h₀, List.lookup_cons, beq_false_of_ne h, ih]

@[simp]
theorem get?_insert (m : OrderedMap κ α) (k k' : κ) (a : α) :
    (m.insert k a).get? k' = if k' = k then some a else m.get? k' :=
  lookup_insertEntry k k' a m.toList

theorem keys_insertEntry (k : κ) (a : α) (entries : List (κ × α)) :
    (insertEntry k a entries).map (·.1) =
      if k ∈ entries.map (·.1) then entries.map (·.1) else entries.map (·.1) ++ [k] := by
  induction entries with
  | nil => simp [insertEntry]
  | cons e entries ih =>
    obtain ⟨k₀, a₀⟩ := e
    by_cases h₀ : k₀ = k
    · simp [insertEntry, h₀]
    · by_cases hk : k ∈ entries.map (·.1)
      · simp only [insertEntry, h₀, if_false, List.map_cons, ih, if_pos hk,
          if_pos (List.mem_cons_of_mem k₀ hk)]
      · simp only [insertEntry, h₀, if_false, List.map_cons, ih, if_neg hk]
        simp [Ne.symm h₀, hk]

/-- A key keeps its place, and a new one comes last. -/
theorem keys_insert (m : OrderedMap κ α) (k : κ) (a : α) :
    (m.insert k a).keys = if k ∈ m.keys then m.keys else m.keys ++ [k] :=
  keys_insertEntry k a m.toList

theorem nodup_keys_insert {m : OrderedMap κ α} (h : m.keys.Nodup) (k : κ) (a : α) :
    (m.insert k a).keys.Nodup := by
  rw [keys_insert]
  split
  · exact h
  · next hk => exact List.nodup_append.2 ⟨h, by simp, by simp; exact fun x hx e => hk (e ▸ hx)⟩

theorem nodup_keys_insertMany {m : OrderedMap κ α} (h : m.keys.Nodup) (entries : List (κ × α)) :
    (m.insertMany entries).keys.Nodup := by
  induction entries generalizing m with
  | nil => exact h
  | cons e entries ih => exact ih (nodup_keys_insert h e.1 e.2)

theorem nodup_keys_ofList (entries : List (κ × α)) : (ofList entries).keys.Nodup :=
  nodup_keys_insertMany (by simp [keys]) entries

end OrderedMap

end HanVariants
