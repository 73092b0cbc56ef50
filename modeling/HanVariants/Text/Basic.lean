/-!
# Texts

A text is the list of its characters, so that lengths and positions count code points. A reader
takes something off the start of a text and gives what follows; `cutBy?` cuts a text at the leftmost
place where a reader succeeds, and `cut?` at the leftmost occurrence of a word. Nothing is lost in a
cut: `cutBy?_eq` and `cut?_eq` put the parts together again.
-/

namespace HanVariants

/-- A text is the list of its characters. -/
abbrev Text := List Char

namespace Text

variable {β : Type}

/-- What follows the word at the start of a text, where `same` says which characters of the text
may stand for a character of the word. -/
def readAs? (same : Char → Char → Bool) : Text → Text → Option Text
  | [], t => some t
  | _ :: _, [] => none
  | w :: word, c :: t => if same w c then readAs? same word t else none

/-- What follows the word at the start of a text. -/
def read? (word t : Text) : Option Text := readAs? (· == ·) word t

/-- Cuts a text at the leftmost place where the reader succeeds: what stands before it, what is
read, and what follows. -/
def cutBy? (reader : Text → Option (β × Text)) : Text → Option (Text × β × Text)
  | [] => (reader []).map fun (b, after) => ([], b, after)
  | c :: t =>
    match reader (c :: t) with
    | some (b, after) => some ([], b, after)
    | none => (cutBy? reader t).map fun (before, b, after) => (c :: before, b, after)

/-- Cuts a text at the leftmost occurrence of a word: what stands before it and what after. -/
def cut? (word t : Text) : Option (Text × Text) :=
  (cutBy? (fun t => (read? word t).map fun after => ((), after)) t).map
    fun (before, _, after) => (before, after)

/-! ## Nothing is lost -/

theorem read?_eq_some_iff {word t after : Text} :
    read? word t = some after ↔ t = word ++ after := by
  induction word generalizing t with
  | nil => simp [read?, readAs?]
  | cons w word ih =>
    cases t with
    | nil => simp [read?, readAs?]
    | cons c t =>
      by_cases h : w = c
      · subst h
        simpa [read?, readAs?] using ih
      · simp [read?, readAs?, h, Ne.symm h]

theorem cutBy?_eq {reader : Text → Option (β × Text)} {t before after : Text} {b : β}
    (h : cutBy? reader t = some (before, b, after)) :
    ∃ s, t = before ++ s ∧ reader s = some (b, after) := by
  induction t generalizing before with
  | nil =>
    simp only [cutBy?, Option.map_eq_some_iff, Prod.mk.injEq] at h
    obtain ⟨⟨b', after'⟩, hr, rfl, rfl, rfl⟩ := h
    exact ⟨[], rfl, hr⟩
  | cons c t ih =>
    simp only [cutBy?] at h
    split at h
    · next b' after' hr =>
      simp only [Option.some.injEq, Prod.mk.injEq] at h
      obtain ⟨rfl, rfl, rfl⟩ := h
      exact ⟨c :: t, rfl, hr⟩
    · simp only [Option.map_eq_some_iff, Prod.mk.injEq] at h
      obtain ⟨⟨before', b', after'⟩, hc, rfl, rfl, rfl⟩ := h
      obtain ⟨s, rfl, hs⟩ := ih hc
      exact ⟨s, rfl, hs⟩

/-- The reader succeeds nowhere in a text that is not cut. -/
theorem cutBy?_eq_none_iff {reader : Text → Option (β × Text)} {t : Text} :
    cutBy? reader t = none ↔ ∀ before s, t = before ++ s → reader s = none := by
  induction t with
  | nil =>
    simp only [cutBy?, Option.map_eq_none_iff]
    refine ⟨fun h before s e => ?_, fun h => h [] [] rfl⟩
    obtain ⟨_, rfl⟩ := List.append_eq_nil_iff.1 e.symm
    exact h
  | cons c t ih =>
    constructor
    · intro h before s e
      simp only [cutBy?] at h
      split at h
      · cases h
      · next hr =>
        simp only [Option.map_eq_none_iff] at h
        cases before with
        | nil =>
          rw [← show c :: t = s from e]
          exact hr
        | cons d before =>
          simp only [List.cons_append, List.cons.injEq] at e
          exact ih.1 h before s e.2
    · intro h
      simp only [cutBy?, h [] (c :: t) rfl, Option.map_eq_none_iff]
      exact ih.2 fun before s e => h (c :: before) s (by simp [e])

theorem cut?_eq {word t before after : Text} (h : cut? word t = some (before, after)) :
    t = before ++ word ++ after := by
  simp only [cut?, Option.map_eq_some_iff, Prod.mk.injEq] at h
  obtain ⟨⟨before', u, after'⟩, hc, rfl, rfl⟩ := h
  obtain ⟨s, rfl, hs⟩ := cutBy?_eq hc
  simp only [Option.map_eq_some_iff, Prod.mk.injEq] at hs
  obtain ⟨a, ha, _, rfl⟩ := hs
  simp [read?_eq_some_iff.1 ha]

end Text

end HanVariants
