import HanVariants.Text.Basic
/-!
# Marks and protected regions

A block stands between the marks `-{` and `}-`. Outside every block only the opening mark means
anything; inside one both do, and they may nest. A page can also protect a region of source text:
the elements `script`, `style`, `code` and `pre`. A region starts at the element's opening tag and
ends after the first closing tag that follows it.
-/

namespace HanVariants.Markup

open Text

/-- The number of blocks that can be open at once. -/
def maxDepth : Nat := 10

inductive Mark where
  | opening
  | closing
deriving DecidableEq, Repr

def Mark.text : Mark → Text
  | opening => ['-', '{']
  | closing => ['}', '-']

/-- Reads a mark. -/
def readMark? (t : Text) : Option (Mark × Text) :=
  match read? Mark.opening.text t with
  | some after => some (.opening, after)
  | none => (read? Mark.closing.text t).map fun after => (.closing, after)

/-! ## Protected regions -/

/-- An element whose content is protected. -/
structure Element where
  name : Text
  /-- Whether anything may stand between the name and the end of the opening tag. -/
  attributes : Bool

def protectedElements : List Element :=
  [⟨"script".toList, true⟩, ⟨"style".toList, true⟩, ⟨"code".toList, false⟩, ⟨"pre".toList, true⟩]

/-- What follows the opening tag of an element. -/
def Element.afterOpening? (e : Element) (t : Text) : Option Text := do
  let t ← read? ('<' :: e.name) t
  if e.attributes then (cut? ['>'] t).map (·.2) else read? ['>'] t

/-- What follows the region of an element. -/
def Element.afterRegion? (e : Element) (t : Text) : Option Text := do
  let t ← e.afterOpening? t
  (cut? ('<' :: '/' :: e.name ++ ['>']) t).map (·.2)

/-- Reads a protected region, its tags included. -/
def readRegion? (t : Text) : Option (Text × Text) :=
  (protectedElements.findSome? (·.afterRegion? t)).map fun after =>
    (t.take (t.length - after.length), after)

/-! ## What is met outside and inside a block -/

inductive Landmark where
  | opening
  | region (text : Text)
deriving DecidableEq, Repr

/-- Reads what means something outside every block; regions do only where they are protected. -/
def readLandmark? (protect : Bool) (t : Text) : Option (Landmark × Text) :=
  match read? Mark.opening.text t with
  | some after => some (.opening, after)
  | none =>
    if protect then (readRegion? t).map fun (region, after) => (.region region, after) else none

/-- Cuts a text outside every block. -/
def cutOutside? (protect : Bool) (t : Text) : Option (Text × Landmark × Text) :=
  cutBy? (readLandmark? protect) t

/-- Cuts a text inside a block. -/
def cutInside? (t : Text) : Option (Text × Mark × Text) := cutBy? readMark? t

/-! ## A cut moves on -/

theorem Mark.length_text (m : Mark) : m.text.length = 2 := by cases m <;> rfl

theorem eq_of_readMark? {t after : Text} {m : Mark} (h : readMark? t = some (m, after)) :
    t = m.text ++ after := by
  unfold readMark? at h
  split at h
  · next ha =>
    simp only [Option.some.injEq, Prod.mk.injEq] at h
    obtain ⟨rfl, rfl⟩ := h
    exact read?_eq_some_iff.1 ha
  · simp only [Option.map_eq_some_iff, Prod.mk.injEq] at h
    obtain ⟨a, ha, rfl, rfl⟩ := h
    exact read?_eq_some_iff.1 ha

theorem Element.afterRegion?_suffix {e : Element} {t after : Text}
    (h : e.afterRegion? t = some after) :
    ∃ region, t = region ++ after ∧ region ≠ [] := by
  simp only [afterRegion?, afterOpening?, Option.bind_eq_bind, Option.bind_eq_some_iff,
    Option.map_eq_some_iff] at h
  obtain ⟨t₂, ⟨t₁, h₁, h₂⟩, ⟨before, a⟩, h₃, rfl⟩ := h
  have e₁ := read?_eq_some_iff.1 h₁
  have e₃ := cut?_eq h₃
  have e₂ : ∃ tag, t₁ = tag ++ t₂ := by
    split at h₂
    · simp only [Option.map_eq_some_iff] at h₂
      obtain ⟨⟨b, a⟩, h₂, rfl⟩ := h₂
      exact ⟨_, cut?_eq h₂⟩
    · exact ⟨_, read?_eq_some_iff.1 h₂⟩
  obtain ⟨tag, rfl⟩ := e₂
  exact ⟨('<' :: e.name) ++ tag ++ before ++ ('<' :: '/' :: e.name ++ ['>']), by simp [e₁, e₃],
    by simp⟩

theorem eq_of_readRegion? {t region after : Text} (h : readRegion? t = some (region, after)) :
    t = region ++ after ∧ region ≠ [] := by
  simp only [readRegion?, Option.map_eq_some_iff, Prod.mk.injEq] at h
  obtain ⟨a, ha, rfl, rfl⟩ := h
  obtain ⟨e, _, he⟩ := List.exists_of_findSome?_eq_some ha
  obtain ⟨r, rfl, hr⟩ := e.afterRegion?_suffix he
  have : (r ++ a).length - a.length = r.length := by simp
  rw [this, List.take_left']
  · exact ⟨rfl, hr⟩
  · rfl

/-- A landmark as it stands in the text. -/
def Landmark.text : Landmark → Text
  | opening => Mark.opening.text
  | region t => t

theorem eq_of_readLandmark? {protect : Bool} {t after : Text} {l : Landmark}
    (h : readLandmark? protect t = some (l, after)) : t = l.text ++ after ∧ l.text ≠ [] := by
  unfold readLandmark? at h
  split at h
  · next ha =>
    simp only [Option.some.injEq, Prod.mk.injEq] at h
    obtain ⟨rfl, rfl⟩ := h
    exact ⟨read?_eq_some_iff.1 ha, by simp [Landmark.text, Mark.text]⟩
  · split at h
    · simp only [Option.map_eq_some_iff, Prod.mk.injEq] at h
      obtain ⟨⟨r, a⟩, hr, rfl, rfl⟩ := h
      exact eq_of_readRegion? hr
    · cases h

theorem cutInside?_eq {t before after : Text} {m : Mark}
    (h : cutInside? t = some (before, m, after)) :
    t = before ++ m.text ++ after := by
  obtain ⟨s, rfl, hs⟩ := cutBy?_eq h
  simp [eq_of_readMark? hs]

theorem cutOutside?_eq {protect : Bool} {t before after : Text} {l : Landmark}
    (h : cutOutside? protect t = some (before, l, after)) :
    t = before ++ l.text ++ after ∧ l.text ≠ [] := by
  obtain ⟨s, rfl, hs⟩ := cutBy?_eq h
  obtain ⟨e, hl⟩ := eq_of_readLandmark? hs
  exact ⟨by simp [← e], hl⟩

theorem length_cutInside? {t before after : Text} {m : Mark}
    (h : cutInside? t = some (before, m, after)) : after.length < t.length := by
  have := m.length_text
  simp only [cutInside?_eq h, List.length_append]
  omega

theorem length_cutOutside? {protect : Bool} {t before after : Text} {l : Landmark}
    (h : cutOutside? protect t = some (before, l, after)) : after.length < t.length := by
  obtain ⟨e, hl⟩ := cutOutside?_eq h
  have := List.length_pos_iff.2 hl
  rw [e]
  simp only [List.length_append]
  omega

end HanVariants.Markup
