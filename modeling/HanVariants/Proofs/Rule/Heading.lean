import HanVariants.Proofs.Rule.Opening
/-!
# The heading of an item

What stands before the first colon of an item is its heading: the code of a variant, and before the
code of a one-way item its source and an arrow (`Lead`). An item says the same however its code is
written (`Lead.exists_readItem`), and a text with a colon is read as an item just where it has a
heading (`readItem_eq_ok_iff`).
-/

namespace HanVariants

open Text

/-! ## Codes -/

namespace Variant

@[simp]
theorem ofCode?_strip (t : Text) : ofCode? (strip t) = ofCode? t := by
  unfold ofCode?
  rw [strip_strip]

theorem parse_strip_eq_ok_iff {t : Text} {v : Variant} : parse (strip t) = .ok v ↔ ofCode? t = some v := by
  unfold parse
  rw [ofCode?_strip]
  cases ofCode? t with
  | none => exact iff_of_false nofun nofun
  | some w => exact ⟨fun h => congrArg some (Except.ok.inj h), fun h => congrArg Except.ok (Option.some.inj h)⟩

/-- A code has the characters of its variant, in one form or another, and blanks. -/
theorem not_mem_of_ofCode? {code : Text} {v : Variant} (h : ofCode? code = some v) {c : Char}
    (hb : isBlank c = false) (hc : codeChar c ∉ v.code) : c ∉ code := by
  intro hm
  rw [← ofCode?_eq_some_iff.1 h] at hc
  exact hc (List.mem_map_of_mem ((padded_strip code).mem hb hm))

theorem not_mem_punctuation {code : Text} {v : Variant} (h : ofCode? code = some v) {c : Char}
    (hc : c ∈ [';', ':', '=']) : c ∉ code := by
  have hsign : isBlank c = false ∧ codeChar c = c ∧ c ∈ [';', ':', '=', '_', kelvinSign] := by
    simp only [List.mem_cons, List.not_mem_nil, or_false] at hc
    rcases hc with rfl | rfl | rfl <;> decide
  obtain ⟨hblank, hchar, hmem⟩ := hsign
  refine not_mem_of_ofCode? h hblank ?_
  rw [hchar]
  exact Rule.not_mem_code v hmem

end Variant

namespace Rule

/-! ## Leads -/

/-- What stands before the code of an item: nothing, or a source and an arrow. -/
inductive Lead : Text → Prop
  | spelling : Lead []
  | oneWay {source : Text} : ':' ∉ source → ¬ ['=', '>'] <:+: source → Lead (source ++ ['=', '>'])

/-- A code for the variant, with what stands before it in an item. -/
def Heading (v : Variant) (head : Text) : Prop :=
  ∃ lead code, Lead lead ∧ Variant.ofCode? code = some v ∧ head = lead ++ code

variable {lead code head : Text} {v : Variant}

theorem Lead.not_mem_colon (h : Lead lead) : ':' ∉ lead := by
  cases h with
  | spelling => exact List.not_mem_nil
  | oneWay hsource _ => simp [hsource]

theorem Heading.not_mem_colon (h : Heading v head) : ':' ∉ head := by
  obtain ⟨lead, code, hlead, hcode, rfl⟩ := h
  rw [List.mem_append, not_or]
  exact ⟨hlead.not_mem_colon, Variant.not_mem_punctuation hcode (by simp)⟩

theorem readItem_code (h : Variant.ofCode? code = some v) (text : Text) :
    readItem (code ++ ':' :: text) =
      .ok (if strip text = [] then none else some (.spelling v (strip text))) := by
  have hcolon : ':' ∉ code := Variant.not_mem_punctuation h (by simp)
  have harrow : ¬ ['=', '>'] <:+: code := fun hi =>
    Variant.not_mem_punctuation (c := '=') h (by simp) (hi.mem List.mem_cons_self)
  unfold readItem
  rw [cut?_char hcolon]
  dsimp only
  rw [cut?_eq_none harrow, Variant.parse_strip_eq_ok_iff.2 h]

theorem readItem_source {source : Text} (hcolon : ':' ∉ source) (harrow : ¬ ['=', '>'] <:+: source)
    (h : Variant.ofCode? code = some v) (text : Text) :
    readItem (source ++ '=' :: '>' :: (code ++ ':' :: text)) =
      .ok (if strip source = [] then none else some (.oneWay ⟨strip source, v, strip text⟩)) := by
  have hcode : ':' ∉ code := Variant.not_mem_punctuation h (by simp)
  have hhead : ':' ∉ source ++ '=' :: '>' :: code := by simp [hcolon, hcode]
  have hwritten : source ++ '=' :: '>' :: (code ++ ':' :: text) =
      source ++ '=' :: '>' :: code ++ ':' :: text := by simp
  -- the first colon is that of the code, and the first arrow before it that of the item
  unfold readItem
  rw [hwritten, cut?_char hhead]
  dsimp only
  rw [cut?_pair (by decide) harrow]
  dsimp only
  rw [Variant.parse_strip_eq_ok_iff.2 h]

/-- What an item says depends on its variant and not on how the code is written. -/
theorem Lead.exists_readItem (h : Lead lead) : ∃ item? : Variant → Text → Option Item,
    ∀ v code text, Variant.ofCode? code = some v →
      readItem (lead ++ (code ++ ':' :: text)) = .ok (item? v text) := by
  cases h with
  | spelling =>
    exact ⟨fun v text => if strip text = [] then none else some (.spelling v (strip text)),
      fun v code text hcode => readItem_code hcode text⟩
  | @oneWay source hcolon harrow =>
    refine ⟨fun v text => if strip source = [] then none else some (.oneWay ⟨strip source, v, strip text⟩), ?_⟩
    intro v code text hcode
    rw [List.append_assoc]
    exact readItem_source hcolon harrow hcode text

/-! ## What is read has a heading -/

theorem exists_readItem_of_heading (h : Heading v head) (text : Text) :
    ∃ item?, readItem (head ++ ':' :: text) = .ok item? := by
  obtain ⟨lead, code, hlead, hcode, rfl⟩ := h
  obtain ⟨item?, hitem⟩ := hlead.exists_readItem
  refine ⟨item? v text, ?_⟩
  rw [List.append_assoc]
  exact hitem v code text hcode

theorem heading_of_readItem {piece : Text} {item? : Option Item} (h : readItem piece = .ok item?)
    (hcolon : ':' ∈ piece) : ∃ v head text, Heading v head ∧ piece = head ++ ':' :: text := by
  unfold readItem at h
  split at h
  · next hnone =>
    -- a text with a colon is cut at one
    obtain ⟨a, b, rfl⟩ := List.append_of_mem hcolon
    have hs := cutBy?_eq_none_iff.1 (Option.map_eq_none_iff.1 hnone) a (':' :: b) rfl
    rw [read?_eq_some_iff.2 (show ':' :: b = [':'] ++ b from rfl)] at hs
    cases hs
  · next head text hcut =>
    have hpiece : piece = head ++ ':' :: text := by simpa using cut?_eq hcut
    have hhead : ':' ∉ head := fun hm =>
      not_isInfix_of_cut? (List.cons_ne_nil _ _) hcut ((List.singleton_infix_iff ':' head).2 hm)
    dsimp only at h
    split at h
    · next source code harrow =>
      obtain rfl : head = source ++ ['=', '>'] ++ code := cut?_eq harrow
      have hsource : ':' ∉ source := fun hm => hhead (by simp [hm])
      have hfirst := not_isInfix_of_cut? (List.cons_ne_nil _ _) harrow
      split at h
      · cases h
      · next v hv =>
        exact ⟨v, _, text, ⟨_, code, .oneWay hsource hfirst, Variant.parse_strip_eq_ok_iff.1 hv, rfl⟩, hpiece⟩
    · split at h
      · cases h
      · next v hv =>
        exact ⟨v, head, text, ⟨[], head, .spelling, Variant.parse_strip_eq_ok_iff.1 hv, rfl⟩, hpiece⟩

/-- A text with a colon is read as an item just where it has a heading before its colon. -/
theorem readItem_eq_ok_iff {piece : Text} (hcolon : ':' ∈ piece) :
    (∃ item?, readItem piece = .ok item?) ↔ ∃ v head, Heading v head ∧ head ++ [':'] <+: piece := by
  constructor
  · rintro ⟨item?, h⟩
    obtain ⟨v, head, text, hhead, rfl⟩ := heading_of_readItem h hcolon
    exact ⟨v, head, hhead, text, by simp⟩
  · rintro ⟨v, head, hhead, text, rfl⟩
    rw [List.append_assoc]
    exact exists_readItem_of_heading hhead text

end Rule

end HanVariants
