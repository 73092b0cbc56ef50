import HanVariants.Proofs.Rule.Heading
import HanVariants.Proofs.Rule.Items
/-!
# Rules written and read

A rule is written item by item, each with a `;` behind it, with codes in any case and any blanks
around its parts (`Item.Written`). Reading gives the items back (`parse_written`): each of them is one
piece (`pieces_written`), and a piece is read as the item that it writes (`readItem_written`). This
asks that the parts can be told from what stands around them (`Item.Plain`); a text may still hold
`;`, `:` and an arrow.
-/

namespace HanVariants

open Text

namespace Rule

/-- The text is the code of the variant, with its letters in any case and blanks around it. -/
def WritesCode (v : Variant) (w : Text) : Prop :=
  ∃ code, code.map Char.toLower = v.code ∧ Padded code w

/-- The source has no blanks around it and nothing in it that ends a source. -/
structure PlainSource (s : Text) : Prop where
  stripped : strip s = s
  semicolon : ';' ∉ s
  colon : ':' ∉ s
  arrow : ¬ ['=', '>'] <:+: s

namespace Item

/-- The text writes the item. -/
inductive Written : Item → Text → Prop
  | spelling {v : Variant} {t code text : Text} :
    WritesCode v code → Padded t text → Written (.spelling v t) (code ++ ':' :: text)
  | oneWay {item : OneWay} {source code text : Text} :
    Padded item.source source → WritesCode item.variant code → Padded item.target text →
      Written (.oneWay item) (source ++ '=' :: '>' :: (code ++ ':' :: text))

/-- What the item says, for its variant. -/
def text : Item → Text
  | spelling _ t => t
  | oneWay item => item.target

/-- The parts of the item can be told from what stands around them. -/
structure Plain (item : Item) : Prop where
  filled : item.Filled
  stripped : strip item.text = item.text
  whole : ¬ HasSeparator item.text
  source : ∀ o, item = oneWay o → PlainSource o.source

end Item

variable {item : Item} {v : Variant} {w : Text}

/-! ## Codes -/

theorem WritesCode.exists_spellsCode (h : WritesCode v w) :
    ∃ code, code.map Char.toLower = v.code ∧ SpellsCode v code ∧ Padded code w := by
  obtain ⟨code, hcode, hw⟩ := h
  refine ⟨code, hcode, ?_, hw⟩
  unfold SpellsCode
  rw [← hcode, List.forall₂_map_left_iff, List.forall₂_same]
  intro c _
  simp [foldsTo]

theorem WritesCode.codeOpening (h : WritesCode v w) : CodeOpening (w ++ [':']) := by
  obtain ⟨code, -, hcode, b, b', hb, hb', rfl⟩ := h.exists_spellsCode
  exact ⟨v, b, code, b', hb, hcode, hb', by simp⟩

/-- The code that is written names its variant. -/
theorem WritesCode.ofCode? (h : WritesCode v w) : Variant.ofCode? w = some v := by
  obtain ⟨code, hlower, hcode, hw⟩ := h.exists_spellsCode
  have hstrip : strip code = code := strip_of_no_blanks fun c hc => (hcode.mem c hc).1
  have hchars : code.map Variant.codeChar = v.code := by
    rw [← hlower]
    refine List.map_congr_left fun c hc => ?_
    have hmem : c.toLower ∈ v.code := by
      rw [← hlower]
      exact List.mem_map_of_mem hc
    have hunderscore : c ≠ '_' := by
      rintro rfl
      exact not_mem_code v (by simp) hmem
    have hkelvin : c ≠ Variant.kelvinSign := by
      rintro rfl
      exact not_mem_code v (by decide) hmem
    rw [Variant.codeChar, if_neg hunderscore, if_neg hkelvin]
  rw [Variant.ofCode?_eq_some_iff, hw.strip_eq hstrip, hchars]

/-! ## One item -/

theorem Item.Written.exists_opening (h : item.Written w) (hp : item.Plain) :
    ∃ p text, Opening p ∧ Padded item.text text ∧ w = p ++ text := by
  cases h with
  | @spelling v t code text hcode htext =>
    exact ⟨code ++ [':'], text, .spelling hcode.codeOpening, htext, by simp⟩
  | @oneWay item source code text hsource hcode htext =>
    refine ⟨source ++ '=' :: '>' :: (code ++ [':']), text, .oneWay ?_ hcode.codeOpening, htext, by simp⟩
    exact fun hm => (hp.source item rfl).semicolon (hsource.mem (by decide) hm)

theorem beginsItem_written (h : item.Written w) (hp : item.Plain) (s : Text) :
    beginsItem (dropBlanks (w ++ s)) = true := by
  obtain ⟨p, text, hopening, -, rfl⟩ := h.exists_opening hp
  refine beginsItem_dropBlanks_iff.2 ⟨p, hopening, ?_⟩
  rw [List.append_assoc]
  exact List.prefix_append p _

theorem readItem_spelling {code text t : Text} (hcode : WritesCode v code) (htext : strip text = t)
    (ht : t ≠ []) : readItem (code ++ ':' :: text) = .ok (some (.spelling v t)) := by
  rw [readItem_code hcode.ofCode?, htext, if_neg ht]

theorem readItem_oneWay {o : OneWay} {source code text : Text} (hsource : Padded o.source source)
    (hplain : PlainSource o.source) (hne : o.source ≠ []) (hcode : WritesCode o.variant code)
    (htext : strip text = o.target) :
    readItem (source ++ '=' :: '>' :: (code ++ ':' :: text)) = .ok (some (.oneWay o)) := by
  have hcolon : ':' ∉ source := fun hm => hplain.colon (hsource.mem (by decide) hm)
  have hsigns : ∀ c ∈ ['=', '>'], isBlank c = false :=
    List.forall_mem_cons.2 ⟨by decide, List.forall_mem_singleton.2 (by decide)⟩
  have harrow : ¬ ['=', '>'] <:+: source := fun hi =>
    hplain.arrow (hsource.isInfix (List.cons_ne_nil _ _) hsigns hi)
  rw [readItem_source hcolon harrow hcode.ofCode?, hsource.strip_eq hplain.stripped, htext, if_neg hne]

theorem readItem_written (h : item.Written w) (hp : item.Plain) : readItem w = .ok (some item) := by
  cases h with
  | spelling hcode htext => exact readItem_spelling hcode (htext.strip_eq hp.stripped) hp.filled
  | oneWay hsource hcode htext =>
    exact readItem_oneWay hsource (hp.source _ rfl) hp.filled hcode (htext.strip_eq hp.stripped)

/-- An item that is written is one piece. -/
theorem pieces_item_written (h : item.Written w) (hp : item.Plain) : pieces w = [w] := by
  obtain ⟨p, text, hopening, ⟨b, b', hb, hb', rfl⟩, rfl⟩ := h.exists_opening hp
  have htext := pieces_of_not_hasSeparator hp.whole hb'
  have hblank := pieces_append_of_not_mem (hb.not_mem (by decide)) htext
  exact pieces_append_of_not_mem hopening.not_mem hblank

/-- Blanks before an item are not part of it. -/
theorem Item.Written.exists_dropBlanks (h : item.Written w) (hp : item.Plain) (s : Text) :
    ∃ w', item.Written w' ∧ dropBlanks (w ++ s) = w' ++ s := by
  cases h with
  | @spelling v t code text hcode htext =>
    obtain ⟨letters, hlower, hspells, hpadded⟩ := hcode.exists_spellsCode
    have hstrip : strip letters = letters := strip_of_no_blanks fun c hc => (hspells.mem c hc).1
    obtain ⟨code', hpadded', hdrop⟩ := hpadded.exists_dropBlanks hspells.ne_nil
      (dropBlanks_of_strip hstrip) (':' :: (text ++ s))
    refine ⟨code' ++ ':' :: text, .spelling ⟨letters, hlower, hpadded'⟩ htext, ?_⟩
    simpa using hdrop
  | @oneWay item source code text hsource hcode htext =>
    have hplain := hp.source item rfl
    obtain ⟨source', hsource', hdrop⟩ := hsource.exists_dropBlanks hp.filled
      (dropBlanks_of_strip hplain.stripped) ('=' :: '>' :: (code ++ ':' :: (text ++ s)))
    refine ⟨source' ++ '=' :: '>' :: (code ++ ':' :: text), .oneWay hsource' hcode htext, ?_⟩
    simpa using hdrop

/-! ## A whole rule -/

theorem body_concat (t : Text) : body (t ++ [';']) = dropBlanks t := by
  unfold body strip
  rw [dropBlanks_append_cons t (by decide), dropEndBlanks_concat _ (by decide)]
  simp

/-- Items are written one after the other, with `;` between and after them. -/
theorem flatMap_written (w : Text) (ws : List Text) :
    (w :: ws).flatMap (· ++ [';']) = w ++ ws.flatMap (';' :: ·) ++ [';'] := by
  induction ws generalizing w with
  | nil => simp
  | cons w' ws ih =>
    rw [List.flatMap_cons, ih]
    simp

/-- The pieces of a rule are its items as they are written. -/
theorem pieces_written {items : List Item} {ws : List Text} (h : item.Written w) (hp : item.Plain)
    (hs : List.Forall₂ Item.Written items ws) (hplain : ∀ item ∈ items, item.Plain) :
    pieces (w ++ ws.flatMap (';' :: ·)) = w :: ws := by
  induction hs generalizing item w with
  | nil => simpa using pieces_item_written h hp
  | @cons item' w' items ws h' _ ih =>
    obtain ⟨hp', hplain⟩ := List.forall_mem_cons.1 hplain
    rw [List.flatMap_cons, List.cons_append, pieces_append_separator (beginsItem_written h' hp' _),
      pieces_item_written h hp, ih h' hp' hplain]
    rfl

theorem forall₂_readItem {items : List Item} {ws : List Text} (hs : List.Forall₂ Item.Written items ws)
    (hplain : ∀ item ∈ items, item.Plain) :
    List.Forall₂ (fun w item => readItem w = .ok (some item)) ws items := by
  induction hs with
  | nil => exact .nil
  | cons h _ ih =>
    obtain ⟨hp, hplain⟩ := List.forall_mem_cons.1 hplain
    exact .cons (readItem_written h hp) (ih hplain)

theorem readItems_written {items : List Item} {ws : List Text}
    (hs : List.Forall₂ Item.Written items ws) (hne : items ≠ []) (hplain : ∀ item ∈ items, item.Plain) :
    readItems (ws.flatMap (· ++ [';'])) = .ok items := by
  cases hs with
  | nil => exact absurd rfl hne
  | @cons item w items ws h hs =>
    obtain ⟨hp, hrest⟩ := List.forall_mem_cons.1 hplain
    obtain ⟨w', h', hdrop⟩ := h.exists_dropBlanks hp (ws.flatMap (';' :: ·))
    refine readItems_eq_ok_iff.2 ⟨(item :: items).map some, ?_, by simp⟩
    rw [flatMap_written, body_concat, hdrop, pieces_written h' hp hs hrest,
      List.forall₂_map_right_iff]
    exact forall₂_readItem (.cons h' hs) hplain

/-- A rule that is written is read as it was meant. -/
theorem parse_written {items : List Item} {ws : List Text} (hne : items ≠ [])
    (hs : List.Forall₂ Item.Written items ws) (hplain : ∀ item ∈ items, item.Plain)
    (hd : ((items.filterMap Item.spelling?).map (·.1)).Nodup) :
    parse (ws.flatMap (· ++ [';'])) =
      .ok { spellings := ⟨items.filterMap Item.spelling?⟩, oneWay := items.filterMap Item.oneWay? } := by
  refine parse_eq_ok_iff.2 ⟨items, readItems_written hs hne hplain, hne, ?_⟩
  rw [ofItems_eq]
  congr 1
  exact congrArg OrderedMap.mk (OrderedMap.toList_ofList hd)

/-- A code in mixed case, a text with a `;`, blanks and an empty target. -/
theorem parse_written_computer :
    parse " ZH-tw : 電;腦 ;計算=> zh-HK :;".toList =
      .ok { spellings := ⟨[(.tw, "電;腦".toList)]⟩, oneWay := [⟨"計算".toList, .hk, []⟩] } := by
  have htw : WritesCode .tw " ZH-tw ".toList :=
    ⟨"ZH-tw".toList, by decide, [' '], [' '], by decide, by decide, by decide⟩
  have hhk : WritesCode .hk " zh-HK ".toList :=
    ⟨"zh-HK".toList, by decide, [' '], [' '], by decide, by decide, by decide⟩
  have htext : Padded "電;腦".toList " 電;腦 ".toList := ⟨[' '], [' '], by decide, by decide, by decide⟩
  have hsource : Padded "計算".toList "計算".toList := ⟨[], [], by decide, by decide, by decide⟩
  have hempty : Padded [] [] := ⟨[], [], by decide, by decide, by decide⟩
  have hplain : ∀ item ∈ [Item.spelling .tw "電;腦".toList, .oneWay ⟨"計算".toList, .hk, []⟩],
      item.Plain := by
    refine List.forall_mem_cons.2 ⟨?_, List.forall_mem_singleton.2 ?_⟩
    · exact ⟨List.cons_ne_nil _ _, by decide, by decide, fun o h => by cases h⟩
    · refine ⟨List.cons_ne_nil _ _, by decide, by decide, ?_⟩
      rintro o ⟨⟩
      exact ⟨by decide, by decide, by decide, by decide⟩
  have hfirst : (Item.spelling .tw "電;腦".toList).Written (" ZH-tw ".toList ++ ':' :: " 電;腦 ".toList) :=
    .spelling htw htext
  have hsecond : (Item.oneWay ⟨"計算".toList, .hk, []⟩).Written
      ("計算".toList ++ '=' :: '>' :: (" zh-HK ".toList ++ [':'])) := .oneWay hsource hhk hempty
  have hrule := parse_written (List.cons_ne_nil _ _) (.cons hfirst (.cons hsecond .nil)) hplain (by decide)
  have htexts : [" ZH-tw ".toList ++ ':' :: " 電;腦 ".toList, "計算".toList ++ '=' :: '>' ::
      (" zh-HK ".toList ++ [':'])].flatMap (· ++ [';']) = " ZH-tw : 電;腦 ;計算=> zh-HK :;".toList := by
    decide
  rwa [htexts] at hrule

end Rule

end HanVariants
