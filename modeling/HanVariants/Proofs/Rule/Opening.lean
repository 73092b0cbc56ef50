import HanVariants.Proofs.Text
import HanVariants.Rule.Parser
/-!
# Where an item begins

An item begins with a code before a colon, and a one-way item with a source and an arrow before that
(`Opening`). The reader recognises just these openings (`beginsItem_dropBlanks_iff`), and an opening
is one stretch without `;` that ends with its colon. So what comes after the next `;` does not matter
to it, and a text is cut at a separator as if the parts before and behind it were texts of their own
(`pieces_append_separator`).
-/

namespace HanVariants

open Text

namespace Rule

/-- The text is the code of the variant, in any case. -/
def SpellsCode (v : Variant) (code : Text) : Prop :=
  List.Forall₂ (fun letter c => foldsTo letter c = true) v.code code

/-- A code between blanks, and a colon. -/
def CodeOpening (p : Text) : Prop :=
  ∃ v b code b', AllBlank b ∧ SpellsCode v code ∧ AllBlank b' ∧ p = b ++ (code ++ (b' ++ [':']))

/-- How an item begins, up to its colon. -/
inductive Opening : Text → Prop
  | spelling {p : Text} : CodeOpening p → Opening p
  | oneWay {source p : Text} : ';' ∉ source → CodeOpening p → Opening (source ++ '=' :: '>' :: p)

/-- The text has a `;` with the opening of an item behind it. -/
def HasSeparator (t : Text) : Prop := ∃ p, Opening p ∧ ';' :: p <:+: t

/-! ## The characters of an opening -/

theorem not_isBlank_of_mem_code {v : Variant} {letter : Char} (h : letter ∈ v.code) :
    isBlank letter = false := by
  have hall : v.code.all (fun letter => !isBlank letter) = true := by cases v <;> decide
  simpa using List.all_eq_true.1 hall letter h

theorem not_mem_code (v : Variant) {c : Char} (h : c ∈ [';', ':', '=', '_', Variant.kelvinSign]) :
    c ∉ v.code := by
  have hall : [';', ':', '=', '_', Variant.kelvinSign].all (fun c => !v.code.contains c) = true := by
    cases v <;> decide
  simpa using List.all_eq_true.1 hall c h

/-- A character that stands for a letter of a code is neither blank nor `;`. -/
theorem foldsTo_code {v : Variant} {letter c : Char} (h : letter ∈ v.code)
    (hc : foldsTo letter c = true) : isBlank c = false ∧ c ≠ ';' := by
  simp only [foldsTo, Bool.or_eq_true, Bool.and_eq_true, decide_eq_true_eq] at hc
  rcases hc with (rfl | ⟨-, rfl⟩) | ⟨-, rfl⟩
  · constructor
    · by_contra hb
      rw [Bool.not_eq_false] at hb
      rw [toLower_of_isBlank hb] at h
      rw [not_isBlank_of_mem_code h] at hb
      cases hb
    · rintro rfl
      exact not_mem_code v (by simp) h
  · decide
  · decide

theorem SpellsCode.mem {v : Variant} {code : Text} (h : SpellsCode v code) :
    ∀ c ∈ code, isBlank c = false ∧ c ≠ ';' := by
  intro c hc
  obtain ⟨i, hi, rfl⟩ := List.mem_iff_getElem.1 hc
  have hlen : i < v.code.length := by rwa [h.length_eq]
  exact foldsTo_code (List.getElem_mem hlen) (h.get hlen hi)

theorem SpellsCode.ne_nil {v : Variant} {code : Text} (h : SpellsCode v code) : code ≠ [] := by
  rintro rfl
  have := h.length_eq
  revert this
  cases v <;> decide

theorem SpellsCode.dropBlanks_append {v : Variant} {code : Text} (h : SpellsCode v code) (t : Text) :
    dropBlanks (code ++ t) = code ++ t := by
  cases code with
  | nil => exact absurd rfl h.ne_nil
  | cons c code => exact dropBlanks_cons (h.mem c List.mem_cons_self).1 _

theorem CodeOpening.not_mem {p : Text} (h : CodeOpening p) : ';' ∉ p := by
  obtain ⟨v, b, code, b', hb, hcode, hb', rfl⟩ := h
  simp only [List.mem_append, List.mem_singleton, not_or]
  exact ⟨hb.not_mem (by decide), fun hm => (hcode.mem _ hm).2 rfl, hb'.not_mem (by decide), by decide⟩

/-- The opening of an item is one stretch: no `;` stands in it. -/
theorem Opening.not_mem {p : Text} (h : Opening p) : ';' ∉ p := by
  cases h with
  | spelling hp => exact hp.not_mem
  | oneWay hsource hp => simp [hsource, hp.not_mem]

theorem CodeOpening.exists_concat {p : Text} (h : CodeOpening p) : ∃ q, p = q ++ [':'] := by
  obtain ⟨v, b, code, b', -, -, -, rfl⟩ := h
  exact ⟨b ++ (code ++ b'), by simp⟩

/-- The opening of an item ends with a colon. -/
theorem Opening.exists_concat {p : Text} (h : Opening p) : ∃ q, p = q ++ [':'] := by
  cases h with
  | spelling hp => exact hp.exists_concat
  | @oneWay source p hsource hp =>
    obtain ⟨q, rfl⟩ := hp.exists_concat
    exact ⟨source ++ '=' :: '>' :: q, by simp⟩

/-- An opening that starts in a text with blanks behind it ends in the text. -/
theorem Opening.isPrefix {p y b : Text} (h : Opening p) (hb : AllBlank b) (hp : p <+: y ++ b) : p <+: y := by
  obtain ⟨q, rfl⟩ := h.exists_concat
  exact isPrefix_of_concat (hb.not_mem (by decide)) hp

/-! ## What the reader recognises -/

theorem beginsSpelling_dropBlanks_iff {t : Text} :
    beginsSpelling (dropBlanks t) = true ↔ ∃ p, CodeOpening p ∧ p <+: t := by
  unfold beginsSpelling
  rw [List.any_eq_true]
  constructor
  · rintro ⟨v, -, hv⟩
    split at hv
    · next rest hr =>
      obtain ⟨code, hcode, ht⟩ := readAs?_eq_some_iff.1 hr
      obtain ⟨b, hb, htb⟩ := exists_allBlank_append t
      obtain ⟨b', hb', hrb⟩ := exists_allBlank_append rest
      cases hd : dropBlanks rest with
      | nil => simp [hd] at hv
      | cons c after =>
        obtain rfl : c = ':' := by simpa [hd] using hv
        refine ⟨_, ⟨v, b, code, b', hb, hcode, hb', rfl⟩, after, ?_⟩
        rw [htb, ht, hrb, hd]
        simp
    · cases hv
  · rintro ⟨p, ⟨v, b, code, b', hb, hcode, hb', rfl⟩, after, rfl⟩
    refine ⟨v, Variant.mem_all v, ?_⟩
    have ht : dropBlanks (b ++ (code ++ (b' ++ [':'])) ++ after) = code ++ (b' ++ ':' :: after) := by
      rw [List.append_assoc, dropBlanks_append hb, List.append_assoc, hcode.dropBlanks_append,
        List.append_assoc, List.singleton_append]
    rw [ht, readAs?_eq_some_iff.2 ⟨code, hcode, rfl⟩]
    dsimp only
    rw [dropBlanks_append hb', dropBlanks_cons (by decide)]
    rfl

theorem beginsTarget_iff {t : Text} :
    beginsTarget t = true ↔ ∃ p, CodeOpening p ∧ '=' :: '>' :: p <+: t := by
  unfold beginsTarget
  constructor
  · intro h
    split at h
    · next rest hr =>
      obtain ⟨p, hp, hpre⟩ := beginsSpelling_dropBlanks_iff.1 h
      rw [read?_eq_some_iff.1 hr]
      exact ⟨p, hp, (List.prefix_append_right_inj ['=', '>']).2 hpre⟩
    · cases h
  · rintro ⟨p, hp, after, rfl⟩
    rw [read?_eq_some_iff.2 (show '=' :: '>' :: p ++ after = ['=', '>'] ++ (p ++ after) from rfl)]
    exact beginsSpelling_dropBlanks_iff.2 ⟨p, hp, List.prefix_append p after⟩

theorem beginsOneWay_iff {t : Text} :
    beginsOneWay t = true ↔
      ∃ source p, ';' ∉ source ∧ CodeOpening p ∧ source ++ '=' :: '>' :: p <+: t := by
  induction t with
  | nil => simp [beginsOneWay]
  | cons c t ih =>
    unfold beginsOneWay
    rw [Bool.and_eq_true, Bool.or_eq_true, ih, beginsTarget_iff, decide_eq_true_eq]
    constructor
    · rintro ⟨hc, ⟨p, hp, hpre⟩ | ⟨source, p, hsource, hp, hpre⟩⟩
      · exact ⟨[], p, List.not_mem_nil, hp, hpre⟩
      · refine ⟨c :: source, p, ?_, hp, List.cons_prefix_cons.2 ⟨rfl, hpre⟩⟩
        simp [hsource, Ne.symm hc]
    · rintro ⟨source, p, hsource, hp, hpre⟩
      cases source with
      | nil =>
        obtain ⟨rfl, -⟩ := List.cons_prefix_cons.1 hpre
        exact ⟨by decide, .inl ⟨p, hp, hpre⟩⟩
      | cons d source =>
        obtain ⟨rfl, htail⟩ := List.cons_prefix_cons.1 hpre
        rw [List.mem_cons, not_or] at hsource
        exact ⟨Ne.symm hsource.1, .inr ⟨source, p, hsource.2, hp, htail⟩⟩

theorem beginsOneWay_dropBlanks (t : Text) : beginsOneWay (dropBlanks t) = beginsOneWay t := by
  induction t with
  | nil => rfl
  | cons c t ih =>
    cases hc : isBlank c with
    | false => rw [dropBlanks_cons hc]
    | true =>
      have hsemicolon : c ≠ ';' := by
        rintro rfl
        cases hc
      have htarget : beginsTarget (c :: t) = false := by
        rw [Bool.eq_false_iff]
        intro h
        obtain ⟨p, -, hpre⟩ := beginsTarget_iff.1 h
        obtain ⟨rfl, -⟩ := List.cons_prefix_cons.1 hpre
        cases hc
      rw [beginsOneWay, htarget, ← ih]
      simp [dropBlanks, hc, hsemicolon]

/-- An item begins in a text, blanks apart, just where an opening stands at its start. -/
theorem beginsItem_dropBlanks_iff {t : Text} :
    beginsItem (dropBlanks t) = true ↔ ∃ p, Opening p ∧ p <+: t := by
  unfold beginsItem
  rw [Bool.or_eq_true, beginsSpelling_dropBlanks_iff, beginsOneWay_dropBlanks, beginsOneWay_iff]
  constructor
  · rintro (⟨p, hp, hpre⟩ | ⟨source, p, hsource, hp, hpre⟩)
    · exact ⟨p, .spelling hp, hpre⟩
    · exact ⟨_, .oneWay hsource hp, hpre⟩
  · rintro ⟨_, hp | ⟨hsource, hp⟩, hpre⟩
    · exact .inl ⟨_, hp, hpre⟩
    · exact .inr ⟨_, _, hsource, hp, hpre⟩

theorem hasSeparator_iff {t : Text} :
    HasSeparator t ↔ ∃ s ∈ t.tails, s.head? = some ';' ∧ beginsItem (dropBlanks s.tail) = true := by
  constructor
  · rintro ⟨p, hp, before, after, rfl⟩
    refine ⟨';' :: (p ++ after), ?_, rfl, beginsItem_dropBlanks_iff.2 ⟨p, hp, List.prefix_append p after⟩⟩
    rw [List.mem_tails, List.append_assoc]
    exact List.suffix_append before _
  · rintro ⟨s, hs, hhead, hbegins⟩
    cases s with
    | nil => cases hhead
    | cons c s =>
      cases hhead
      obtain ⟨p, hp, hpre⟩ := beginsItem_dropBlanks_iff.1 hbegins
      refine ⟨p, hp, ?_⟩
      exact (List.cons_prefix_cons.2 ⟨rfl, hpre⟩).isInfix.trans ((List.mem_tails ..).1 hs).isInfix

instance (t : Text) : Decidable (HasSeparator t) := decidable_of_iff' _ hasSeparator_iff

/-- What follows the next `;` does not matter to whether an item begins. -/
theorem beginsItem_dropBlanks_append (t s : Text) :
    beginsItem (dropBlanks (t ++ ';' :: s)) = beginsItem (dropBlanks t) := by
  rw [Bool.eq_iff_iff, beginsItem_dropBlanks_iff, beginsItem_dropBlanks_iff]
  constructor
  · rintro ⟨p, hp, hpre⟩
    exact ⟨p, hp, isPrefix_of_not_mem hp.not_mem hpre⟩
  · rintro ⟨p, hp, hpre⟩
    exact ⟨p, hp, hpre.trans (List.prefix_append t _)⟩

/-! ## Pieces -/

theorem exists_pieces_eq_cons (t : Text) : ∃ piece rest, pieces t = piece :: rest := by
  cases t with
  | nil => exact ⟨[], [], rfl⟩
  | cons c t =>
    unfold pieces
    split
    · exact ⟨[], _, rfl⟩
    · cases pieces t with
      | nil => exact ⟨[c], [], rfl⟩
      | cons piece rest => exact ⟨c :: piece, rest, rfl⟩

/-- A text is cut at a separator, and the parts before and behind it are cut for themselves. -/
theorem pieces_append_separator {s : Text} (h : beginsItem (dropBlanks s) = true) (t : Text) :
    pieces (t ++ ';' :: s) = pieces t ++ pieces s := by
  induction t with
  | nil =>
    have hcut : pieces (';' :: s) = [] :: pieces s := by
      rw [pieces, h]
      rfl
    exact hcut
  | cons c t ih =>
    obtain ⟨piece, rest, hpieces⟩ := exists_pieces_eq_cons t
    rw [List.cons_append, pieces, pieces, beginsItem_dropBlanks_append, ih, hpieces]
    split <;> rfl

/-- A text goes into the first piece where no `;` of it has an item behind it. -/
theorem pieces_append {u s piece : Text} {rest : List Text}
    (hu : ∀ y, ';' :: y <:+ u → beginsItem (dropBlanks (y ++ s)) = false)
    (hs : pieces s = piece :: rest) : pieces (u ++ s) = (u ++ piece) :: rest := by
  induction u with
  | nil => exact hs
  | cons c u ih =>
    have hc : ¬ (decide (c = ';') && beginsItem (dropBlanks (u ++ s))) = true := by
      rw [Bool.and_eq_true, decide_eq_true_eq]
      rintro ⟨rfl, hb⟩
      rw [hu u List.suffix_rfl] at hb
      cases hb
    rw [List.cons_append, pieces, if_neg hc, ih fun y hy => hu y (hy.trans (List.suffix_cons c u))]
    rfl

theorem pieces_append_of_not_mem {u s piece : Text} {rest : List Text} (hu : ';' ∉ u)
    (hs : pieces s = piece :: rest) : pieces (u ++ s) = (u ++ piece) :: rest :=
  pieces_append (fun _ hy => absurd (hy.mem List.mem_cons_self) hu) hs

/-- A text without a separator is one piece with the blanks behind it. -/
theorem pieces_of_not_hasSeparator {t b : Text} (ht : ¬ HasSeparator t) (hb : AllBlank b) :
    pieces (t ++ b) = [t ++ b] := by
  have hblank : pieces b = [b] := by
    simpa using pieces_append_of_not_mem (hb.not_mem (by decide)) (s := []) rfl
  refine pieces_append (fun y hy => ?_) hblank
  rw [Bool.eq_false_iff]
  intro hbegins
  obtain ⟨p, hp, hpre⟩ := beginsItem_dropBlanks_iff.1 hbegins
  have hpy : ';' :: p <+: ';' :: y := List.cons_prefix_cons.2 ⟨rfl, hp.isPrefix hb hpre⟩
  exact ht ⟨p, hp, hpy.isInfix.trans hy.isInfix⟩

end Rule

end HanVariants
