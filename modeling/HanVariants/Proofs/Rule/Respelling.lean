import HanVariants.Proofs.Rule.Separators
/-!
# Codes written in other ways

A code may be written in any case, with `_` for `-` and with blanks around it, and names the same
variant. From the start of an item on, the way it is written does not matter
(`mapM_pieces_respelled`), so in the first item of a rule it may be any of these. Behind a `;` an item
must be recognised before it is read (`Lead.beginsItem`), and there `_` does not stand for `-`: a code
with `_` makes its item a part of the text before it.
-/

namespace HanVariants

open Text

namespace Rule

variable {v : Variant} {code code' lead : Text}

/-! ## Codes that are recognised -/

/-- A code that names a variant spells its code, if no `_` is in it. -/
theorem spellsCode_of_ofCode? (h : Variant.ofCode? code = some v) (hunderscore : '_' ∉ code) :
    SpellsCode v (strip code) := by
  have hstrip : ∀ c ∈ strip code, c ≠ '_' := by
    rintro c hc rfl
    obtain ⟨b, b', -, -, hcode⟩ := padded_strip code
    rw [hcode] at hunderscore
    simp [hc] at hunderscore
  unfold SpellsCode
  rw [← Variant.ofCode?_eq_some_iff.1 h, List.forall₂_map_left_iff, List.forall₂_same]
  intro c hc
  unfold foldsTo Variant.codeChar
  rw [if_neg (hstrip c hc)]
  split
  · next hkelvin => simp [hkelvin]
  · simp

/-- A code without `_` opens an item, with what stands before it. -/
theorem Lead.opening (h : Lead lead) (hsemicolon : ';' ∉ lead) (hcode : Variant.ofCode? code = some v)
    (hunderscore : '_' ∉ code) : Opening (lead ++ (code ++ [':'])) := by
  have hopening : CodeOpening (code ++ [':']) := by
    obtain ⟨b, b', hb, hb', hpadded⟩ := padded_strip code
    refine ⟨v, b, strip code, b', hb, spellsCode_of_ofCode? hcode hunderscore, hb', ?_⟩
    calc code ++ [':'] = b ++ (strip code ++ b') ++ [':'] := by rw [← hpadded]
      _ = b ++ (strip code ++ (b' ++ [':'])) := by simp
  cases h with
  | spelling => exact .spelling hopening
  | @oneWay source hcolon harrow =>
    rw [List.append_assoc]
    refine .oneWay (fun hm => hsemicolon ?_) hopening
    simp [hm]

theorem Lead.beginsItem (h : Lead lead) (hsemicolon : ';' ∉ lead) (hcode : Variant.ofCode? code = some v)
    (hunderscore : '_' ∉ code) (text : Text) :
    beginsItem (dropBlanks (lead ++ (code ++ ':' :: text))) = true := by
  have hopening : Opening (lead ++ (code ++ [':'])) := h.opening hsemicolon hcode hunderscore
  exact beginsItem_dropBlanks_iff.2 ⟨_, hopening, text, by simp⟩

/-! ## Reading from an item on -/

/-- Blanks at the start of a text say nothing. -/
theorem readItem_append_of_allBlank {b : Text} (hb : AllBlank b) (piece : Text) :
    readItem (b ++ piece) = readItem piece := by
  unfold readItem
  rw [cut?_append_of_not_mem (hb.not_mem (by decide))]
  cases cut? [':'] piece with
  | none => rfl
  | some found =>
    obtain ⟨head, text⟩ := found
    dsimp only [Option.map_some]
    rw [cut?_append_of_not_mem (hb.not_mem (by decide))]
    cases cut? ['=', '>'] head with
    | none =>
      dsimp only [Option.map_none]
      rw [strip_append hb]
    | some found =>
      obtain ⟨source, code⟩ := found
      dsimp only [Option.map_some]
      rw [strip_append hb]

theorem mapM_pieces_dropBlanks (t s : Text) :
    (pieces (dropBlanks t ++ s)).mapM readItem = (pieces (t ++ s)).mapM readItem := by
  obtain ⟨b, hb, ht⟩ := exists_allBlank_append t
  obtain ⟨piece, rest, hpieces⟩ := exists_pieces_eq_cons (dropBlanks t ++ s)
  conv_rhs => rw [ht, List.append_assoc, pieces_append_of_not_mem (hb.not_mem (by decide)) hpieces]
  rw [hpieces, List.mapM_cons, List.mapM_cons, readItem_append_of_allBlank hb]

/-- What is taken off the end of a rule stands behind its last colon. -/
theorem exists_body_append_colon (after : Text) :
    ∃ text, ∀ t, body (t ++ ':' :: after) = dropBlanks t ++ ':' :: text := by
  have hstrip : ∀ t, strip (t ++ ':' :: after) = dropBlanks t ++ ':' :: dropEndBlanks after := by
    intro t
    unfold strip
    rw [dropBlanks_append_cons t (by decide), dropEndBlanks_append_cons _ (by decide)]
  unfold body
  simp only [hstrip]
  rcases List.eq_nil_or_concat' (dropEndBlanks after) with hnil | ⟨text, c, hconcat⟩
  · refine ⟨[], fun t => ?_⟩
    rw [hnil]
    simp
  · by_cases hc : c = ';'
    · refine ⟨text, fun t => ?_⟩
      rw [hconcat, hc, show dropBlanks t ++ ':' :: (text ++ [';']) = dropBlanks t ++ ':' :: text ++ [';'] by simp,
        List.getLast?_concat, if_pos rfl, List.dropLast_concat]
    · refine ⟨text ++ [c], fun t => ?_⟩
      rw [hconcat, ← List.cons_append, ← List.append_assoc, List.getLast?_concat, if_neg (by simpa using hc)]

/-! ## The same code in another way -/

/-- The pieces from an item on say the same in whichever way its code is written. -/
theorem mapM_pieces_respelled (hlead : Lead lead) (hsemicolon : ';' ∉ lead)
    (hcode : Variant.ofCode? code = some v) (hcode' : Variant.ofCode? code' = some v) (text : Text) :
    (pieces (lead ++ (code ++ ':' :: text))).mapM readItem =
      (pieces (lead ++ (code' ++ ':' :: text))).mapM readItem := by
  obtain ⟨item?, hitem⟩ := hlead.exists_readItem
  obtain ⟨piece, rest, htext⟩ := exists_pieces_eq_cons text
  have hread : ∀ code, Variant.ofCode? code = some v →
      (pieces (lead ++ (code ++ ':' :: text))).mapM readItem =
        (rest.mapM readItem).map (item? v piece :: ·) := by
    intro code hcode
    have hstart : ';' ∉ lead ++ (code ++ [':']) := by
      simp [hsemicolon, Variant.not_mem_punctuation hcode (c := ';')]
    have hpieces := pieces_append_of_not_mem hstart htext
    simp only [List.append_assoc, List.singleton_append] at hpieces
    rw [hpieces, List.mapM_cons, hitem v code piece hcode]
    rfl
  rw [hread code hcode, hread code' hcode']

/-- In the first item of a rule a code may be written in any way that names its variant, and in any
other item in any way without `_`. -/
theorem parse_respelled (hlead : Lead lead) (hsemicolon : ';' ∉ lead)
    (hcode : Variant.ofCode? code = some v) (hcode' : Variant.ofCode? code' = some v) {before : Text}
    (hbefore : before = [] ∨ (∃ a, before = a ++ [';']) ∧ '_' ∉ code ∧ '_' ∉ code') (after : Text) :
    let t := before ++ (lead ++ (code ++ ':' :: after))
    let t' := before ++ (lead ++ (code' ++ ':' :: after))
    readItems t = readItems t' ∧ ∀ r, parse t = .ok r ↔ parse t' = .ok r := by
  intro t t'
  obtain ⟨text, hbody⟩ := exists_body_append_colon after
  have hread : ∀ code, (pieces (body (before ++ (lead ++ (code ++ ':' :: after))))).mapM readItem =
      (pieces (before ++ (lead ++ (code ++ ':' :: text)))).mapM readItem := by
    intro code
    have hassoc : ∀ s, before ++ (lead ++ (code ++ ':' :: s)) = before ++ (lead ++ code) ++ ':' :: s := by simp
    rw [hassoc, hbody, mapM_pieces_dropBlanks, hassoc]
  have hpieces : (pieces (body t)).mapM readItem = (pieces (body t')).mapM readItem := by
    rw [hread, hread]
    have hsame := mapM_pieces_respelled hlead hsemicolon hcode hcode' text
    rcases hbefore with rfl | ⟨⟨a, rfl⟩, hunderscore, hunderscore'⟩
    · exact hsame
    · -- either way the item begins behind a separator
      have hcut : ∀ code, Variant.ofCode? code = some v → '_' ∉ code →
          pieces (a ++ [';'] ++ (lead ++ (code ++ ':' :: text))) =
            pieces a ++ pieces (lead ++ (code ++ ':' :: text)) := by
        intro code hcode hunderscore
        rw [List.append_assoc, List.singleton_append]
        exact pieces_append_separator (hlead.beginsItem hsemicolon hcode hunderscore text) a
      rw [hcut code hcode hunderscore, hcut code' hcode' hunderscore', List.mapM_append, List.mapM_append, hsame]
  have hitems : readItems t = readItems t' := by
    unfold readItems
    rw [hpieces]
  refine ⟨hitems, fun r => ?_⟩
  rw [parse_eq_ok_iff, parse_eq_ok_iff, hitems]

/-- A code with `_` in the first item, and one in capitals and with a blank behind it. -/
theorem parse_respelled_computer :
    Variant.ofCode? "zh-cn".toList = some .cn ∧ Variant.ofCode? "ZH_CN".toList = some .cn ∧
    Variant.ofCode? "zh-tw".toList = some .tw ∧ Variant.ofCode? "ZH-TW ".toList = some .tw ∧
    ∀ r, parse "zh-cn:电脑;計算=>zh-tw:電腦".toList = .ok r ↔ parse "ZH_CN:电脑;計算=>ZH-TW :電腦".toList = .ok r := by
  have hcn : Variant.ofCode? "zh-cn".toList = some .cn := by decide
  have hcn' : Variant.ofCode? "ZH_CN".toList = some .cn := by decide
  have htw : Variant.ofCode? "zh-tw".toList = some .tw := by decide
  have htw' : Variant.ofCode? "ZH-TW ".toList = some .tw := by decide
  have hlead : Lead ("計算".toList ++ ['=', '>']) := .oneWay (by decide) (by decide)
  have hfirst := (parse_respelled .spelling List.not_mem_nil hcn hcn' (.inl rfl)
    "电脑;計算=>zh-tw:電腦".toList).2
  have hsecond := (parse_respelled hlead (by decide) htw htw'
    (.inr ⟨⟨"ZH_CN:电脑".toList, rfl⟩, by decide, by decide⟩) "電腦".toList).2
  have htext : [] ++ ([] ++ ("zh-cn".toList ++ ':' :: "电脑;計算=>zh-tw:電腦".toList)) =
      "zh-cn:电脑;計算=>zh-tw:電腦".toList := by decide
  have hmiddle : [] ++ ([] ++ ("ZH_CN".toList ++ ':' :: "电脑;計算=>zh-tw:電腦".toList)) =
      "ZH_CN:电脑".toList ++ [';'] ++ ("計算".toList ++ ['=', '>'] ++ ("zh-tw".toList ++ ':' :: "電腦".toList)) := by
    decide
  have htext' : "ZH_CN:电脑".toList ++ [';'] ++ ("計算".toList ++ ['=', '>'] ++ ("ZH-TW ".toList ++
      ':' :: "電腦".toList)) = "ZH_CN:电脑;計算=>ZH-TW :電腦".toList := by decide
  rw [htext, hmiddle] at hfirst
  rw [htext'] at hsecond
  exact ⟨hcn, hcn', htw, htw', fun r => (hfirst r).trans (hsecond r)⟩

/-- Behind a `;` a code with `_` is not recognised, and its item goes into the text before it. -/
theorem parse_underscore :
    Variant.ofCode? "zh-tw".toList = some .tw ∧ Variant.ofCode? "zh_tw".toList = some .tw ∧
    parse "zh-cn:甲;zh-tw:乙".toList = .ok { spellings := ⟨[(.cn, "甲".toList), (.tw, "乙".toList)]⟩ } ∧
    parse "zh-cn:甲;zh_tw:乙".toList = .ok { spellings := ⟨[(.cn, "甲;zh_tw:乙".toList)]⟩ } := by
  decide

end Rule

end HanVariants
