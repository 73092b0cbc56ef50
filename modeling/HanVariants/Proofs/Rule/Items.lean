import HanVariants.Proofs.OrderedMap
import HanVariants.Rule.Parser
import Mathlib.Data.List.Forall2
/-!
# The items of a rule

A rule that was read is made of the items of its text, in order (`parse_eq_ok_iff`): its spellings
are those of the items, the last one for a variant, and so are its one-way items (`ofItems_eq`). An
item that says nothing is left out where it is read, so that a rule turns no empty text into another
(`filled_of_parse`).
-/

namespace HanVariants

namespace Rule

/-! ## Items put together -/

namespace Item

def spelling? : Item → Option (Variant × Text)
  | spelling v t => some (v, t)
  | oneWay _ => none

def oneWay? : Item → Option OneWay
  | spelling _ _ => none
  | oneWay item => some item

end Item

theorem foldl_addItem (r : Rule) (items : List Item) :
    items.foldl addItem r =
      { spellings := r.spellings.insertMany (items.filterMap Item.spelling?)
        oneWay := r.oneWay ++ items.filterMap Item.oneWay? } := by
  induction items generalizing r with
  | nil => simp [OrderedMap.insertMany]
  | cons item items ih =>
    rw [List.foldl_cons, ih]
    cases item with
    | spelling v t => rfl
    | oneWay item =>
      rw [addItem, List.append_assoc]
      rfl

theorem ofItems_eq (items : List Item) :
    ofItems items =
      { spellings := .ofList (items.filterMap Item.spelling?)
        oneWay := items.filterMap Item.oneWay? } := foldl_addItem {} items

/-! ## Items read one after the other -/

/-- Reading goes well just where it does for each piece. -/
theorem mapM_eq_ok_iff {α β ε : Type} {f : α → Except ε β} {xs : List α} {ys : List β} :
    xs.mapM f = .ok ys ↔ List.Forall₂ (fun x y => f x = .ok y) xs ys := by
  induction xs generalizing ys with
  | nil =>
    rw [List.mapM_nil, List.forall₂_nil_left_iff]
    exact ⟨fun h => (Except.ok.inj h).symm, fun h => congrArg Except.ok h.symm⟩
  | cons x xs ih =>
    rw [List.mapM_cons, List.forall₂_cons_left_iff]
    cases hx : f x with
    | error e =>
      constructor
      · intro h
        cases h
      · rintro ⟨y, ys', hy, -⟩
        cases hy
    | ok y =>
      cases hxs : xs.mapM f with
      | error e =>
        constructor
        · intro h
          cases h
        · rintro ⟨y', ys', -, hys, -⟩
          rw [← ih, hxs] at hys
          cases hys
      | ok ys' =>
        constructor
        · intro h
          cases h
          exact ⟨y, ys', rfl, ih.1 hxs, rfl⟩
        · rintro ⟨y', ys'', hy, hys, rfl⟩
          rw [← ih, hxs] at hys
          cases hy
          cases hys
          rfl

theorem exists_mapM_eq_ok {α β ε : Type} {f : α → Except ε β} {xs : List α}
    (h : ∀ x ∈ xs, ∃ y, f x = .ok y) : ∃ ys, xs.mapM f = .ok ys := by
  induction xs with
  | nil => exact ⟨[], rfl⟩
  | cons x xs ih =>
    obtain ⟨⟨y, hy⟩, hxs⟩ := List.forall_mem_cons.1 h
    obtain ⟨ys, hys⟩ := ih hxs
    exact ⟨y :: ys, mapM_eq_ok_iff.2 (.cons hy (mapM_eq_ok_iff.1 hys))⟩

/-- Where all but the first are read, an error is that of the first. -/
theorem eq_error_of_mapM {α β ε : Type} {f : α → Except ε β} {x : α} {xs : List α} {e : ε}
    (hxs : ∀ x ∈ xs, ∃ y, f x = .ok y) (h : (x :: xs).mapM f = .error e) : f x = .error e := by
  obtain ⟨ys, hys⟩ := exists_mapM_eq_ok hxs
  rw [List.mapM_cons, hys] at h
  cases hx : f x with
  | error e' =>
    rw [hx] at h
    cases h
    rfl
  | ok y =>
    rw [hx] at h
    cases h

theorem readItems_eq_ok_iff {t : Text} {items : List Item} :
    readItems t = .ok items ↔ ∃ read : List (Option Item),
      List.Forall₂ (fun piece item? => readItem piece = .ok item?) (pieces (body t)) read ∧
        read.filterMap id = items := by
  unfold readItems
  constructor
  · intro h
    cases hread : (pieces (body t)).mapM readItem with
    | error e =>
      rw [hread] at h
      cases h
    | ok read =>
      rw [hread] at h
      exact ⟨read, mapM_eq_ok_iff.1 hread, Except.ok.inj h⟩
  · rintro ⟨read, hread, rfl⟩
    rw [mapM_eq_ok_iff.2 hread]
    rfl

/-- A rule is made of the items of its text, of which there is at least one. -/
theorem parse_eq_ok_iff {t : Text} {r : Rule} :
    parse t = .ok r ↔ ∃ items, readItems t = .ok items ∧ items ≠ [] ∧ ofItems items = r := by
  unfold parse
  cases readItems t with
  | error e =>
    constructor
    · intro h
      cases h
    · rintro ⟨items, h, -⟩
      cases h
  | ok items =>
    cases items with
    | nil =>
      constructor
      · intro h
        cases h
      · rintro ⟨items, h, hne, -⟩
        cases h
        exact absurd rfl hne
    | cons item items =>
      constructor
      · intro h
        exact ⟨item :: items, rfl, List.cons_ne_nil item items, Except.ok.inj h⟩
      · rintro ⟨items', h, -, rfl⟩
        cases h
        rfl

/-! ## Nothing empty is turned into a text -/

/-- The item says something: its spelling or its source is there. -/
def Item.Filled : Item → Prop
  | spelling _ t => t ≠ []
  | oneWay item => item.source ≠ []

/-- No spelling and no source of a rule is empty. -/
structure Filled (r : Rule) : Prop where
  spellings : ∀ p ∈ r.spellings.toList, p.2 ≠ []
  oneWay : ∀ item ∈ r.oneWay, item.source ≠ []

theorem filled_of_readItem {piece : Text} {item : Item} (h : readItem piece = .ok (some item)) :
    item.Filled := by
  unfold readItem at h
  split at h
  · cases h
  · dsimp only at h
    split at h
    · -- an arrow stands before the colon
      split at h
      · cases h
      · split at h
        · cases h
        · next hs =>
          cases h
          exact hs
    · split at h
      · cases h
      · split at h
        · cases h
        · next ht =>
          cases h
          exact ht

theorem filled_of_mem_readItems {t : Text} {items : List Item} (h : readItems t = .ok items)
    {item : Item} (hi : item ∈ items) : item.Filled := by
  obtain ⟨read, hread, rfl⟩ := readItems_eq_ok_iff.1 h
  generalize pieces (body t) = ps at hread
  have hall : ∀ item? ∈ read, ∀ item, item? = some item → item.Filled := by
    clear hi h
    induction hread with
    | nil => simp
    | cons hpiece _ ih =>
      refine List.forall_mem_cons.2 ⟨?_, ih⟩
      rintro item rfl
      exact filled_of_readItem hpiece
  obtain ⟨item?, hmem, hitem⟩ := List.mem_filterMap.1 hi
  exact hall item? hmem item hitem

theorem filled_ofItems {items : List Item} (h : ∀ item ∈ items, item.Filled) : (ofItems items).Filled := by
  rw [ofItems_eq]
  constructor
  · intro p hp
    obtain ⟨item, hi, he⟩ := List.mem_filterMap.1 (OrderedMap.mem_ofList hp)
    cases item with
    | spelling v t =>
      cases he
      exact h _ hi
    | oneWay item => cases he
  · intro item hitem
    obtain ⟨item', hi, he⟩ := List.mem_filterMap.1 hitem
    cases item' with
    | spelling v t => cases he
    | oneWay item' =>
      cases he
      exact h _ hi

/-- Whatever the text, a rule that is read has nothing empty in it. -/
theorem filled_of_parse {t : Text} {r : Rule} (h : parse t = .ok r) : r.Filled := by
  obtain ⟨items, hitems, -, rfl⟩ := parse_eq_ok_iff.1 h
  exact filled_ofItems fun item hi => filled_of_mem_readItems hitems hi

/-- Every word pair of such a rule has a source. -/
theorem Filled.ne_nil_of_mem_pairs {r : Rule} (h : r.Filled) {v : Variant} {p : Text × Text}
    (hp : p ∈ (r.pairs v).toList) : p.1 ≠ [] := by
  rcases List.mem_append.1 (OrderedMap.mem_ofList hp) with hp | hp
  · unfold spellingPairs at hp
    split at hp
    · cases hp
    · obtain ⟨q, hq, rfl⟩ := List.mem_map.1 hp
      exact h.spellings q (List.mem_filter.1 hq).1
  · obtain ⟨item, hitem, rfl⟩ := List.mem_map.1 hp
    exact h.oneWay item (List.mem_filter.1 hitem).1

end Rule

end HanVariants
