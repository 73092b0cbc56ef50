import HanVariants.Markup.Mark
import HanVariants.Proofs.Text
/-!
# Protected regions, end by end

A protected region is told here by where it ends: `upTo?` is the shortest start of a text that ends
with a word, and `region?` puts such stretches together. Reading a region gives just what they
delimit (`readRegion?_eq`).
-/

namespace HanVariants

namespace Text

/-- The shortest start of a text that ends with a word. -/
def upTo? (word t : Text) : Option Text := t.inits.find? fun s => word <:+ s

theorem isPrefix_of_upTo? {word t s : Text} (h : upTo? word t = some s) : s <+: t :=
  (List.mem_inits s t).1 (List.mem_of_find?_eq_some h)

theorem isPrefix_append {u v t : Text} (hu : u <+: t) (hv : v <+: t.drop u.length) : u ++ v <+: t := by
  obtain ⟨r, rfl⟩ := hu
  rw [List.drop_left] at hv
  exact (List.prefix_append_right_inj u).2 hv

theorem find?_inits {p : Text → Bool} {t s : Text} (hs : s <+: t) (hp : p s)
    (hmin : ∀ s', s' <+: t → s'.length < s.length → ¬ p s') : t.inits.find? p = some s := by
  induction t generalizing p s with
  | nil =>
    rw [List.prefix_nil] at hs
    subst hs
    simp [hp]
  | cons c t ih =>
    rw [List.inits_cons]
    cases s with
    | nil => exact List.find?_cons_of_pos hp
    | cons c' s =>
      obtain ⟨rfl, hst⟩ := List.cons_prefix_cons.1 hs
      rw [List.find?_cons_of_neg (hmin [] List.nil_prefix (Nat.succ_pos _)), List.find?_map, ih hst hp]
      · rfl
      · intro s' hs' hlt
        exact hmin (c' :: s') (List.cons_prefix_cons.2 ⟨rfl, hs'⟩) (Nat.succ_lt_succ hlt)

/-- The cut at a word is made where the shortest start that ends with the word does. -/
theorem upTo?_eq_cut? (word t : Text) :
    upTo? word t = (cut? word t).map fun (before, _) => before ++ word := by
  have reads : ∀ r : Text, ((read? word (word ++ r)).map fun after => ((), after)) = some ((), r) := by
    intro r
    rw [read?_eq_some_iff.2 rfl, Option.map_some]
  unfold cut?
  cases hc : cutBy? (fun t => (read? word t).map fun after => ((), after)) t with
  | none =>
    refine List.find?_eq_none.2 fun s hs => ?_
    rw [decide_eq_true_iff]
    rintro ⟨u, rfl⟩
    obtain ⟨r, rfl⟩ := (List.mem_inits _ _).1 hs
    have hnone := cutBy?_eq_none_iff.1 hc u (word ++ r) (List.append_assoc u word r)
    rw [reads] at hnone
    cases hnone
  | some found =>
    obtain ⟨before, _, after⟩ := found
    obtain ⟨s, rfl, hs⟩ := cutBy?_eq hc
    obtain ⟨after', ha, he⟩ := Option.map_eq_some_iff.1 hs
    obtain rfl := read?_eq_some_iff.1 ha
    refine find?_inits ⟨after', by rw [List.append_assoc]⟩ (by simp) fun s' hs' hlt => ?_
    rw [decide_eq_true_iff]
    rintro ⟨u, rfl⟩
    obtain ⟨r, hr⟩ := hs'
    -- an occurrence that ends earlier would also start earlier
    have hnone := cutBy?_leftmost hc (u := u) (s := word ++ r)
      (by rw [← hr, List.append_assoc]) (by simpa using hlt)
    rw [reads] at hnone
    cases hnone

theorem map_cut? (word t : Text) :
    (cut? word t).map (·.2) = (upTo? word t).map fun s => t.drop s.length := by
  rw [upTo?_eq_cut?, Option.map_map]
  cases hc : cut? word t with
  | none => rfl
  | some found =>
    obtain ⟨before, after⟩ := found
    simp [cut?_eq hc, List.drop_left']

end Text

namespace Markup

open Text

/-- A region from `<code>` to `</code>`. -/
def bareRegion? (name t : Text) : Option Text :=
  if '<' :: name ++ ['>'] <+: t then
    (upTo? ('<' :: '/' :: name ++ ['>']) (t.drop ('<' :: name ++ ['>']).length)).map
      ('<' :: name ++ ['>'] ++ ·)
  else none

/-- A region whose opening tag may hold anything up to the first `>`, such as `<pre ..>..</pre>`. -/
def taggedRegion? (name t : Text) : Option Text :=
  if ('<' :: name) <+: t then do
    let tag ← (upTo? ['>'] (t.drop (name.length + 1))).map ('<' :: name ++ ·)
    let content ← upTo? ('<' :: '/' :: name ++ ['>']) (t.drop tag.length)
    some (tag ++ content)
  else none

/-- The protected region that starts a text. -/
def region? (t : Text) : Option Text :=
  [taggedRegion? "script".toList, taggedRegion? "style".toList, bareRegion? "code".toList,
    taggedRegion? "pre".toList].findSome? (· t)

/-! ## A start that is put together -/

theorem isPrefix_of_bareRegion? {name t r : Text} (h : bareRegion? name t = some r) : r <+: t := by
  unfold bareRegion? at h
  split at h
  · next hp =>
    obtain ⟨s, hs, rfl⟩ := Option.map_eq_some_iff.1 h
    exact isPrefix_append hp (isPrefix_of_upTo? hs)
  · cases h

theorem isPrefix_of_taggedRegion? {name t r : Text} (h : taggedRegion? name t = some r) : r <+: t := by
  unfold taggedRegion? at h
  split at h
  · next hp =>
    obtain ⟨tag, htag, h⟩ := Option.bind_eq_some_iff.1 h
    obtain ⟨content, hcontent, h⟩ := Option.bind_eq_some_iff.1 h
    obtain ⟨s, hs, rfl⟩ := Option.map_eq_some_iff.1 htag
    cases h
    exact isPrefix_append (isPrefix_append hp (isPrefix_of_upTo? hs)) (isPrefix_of_upTo? hcontent)
  · cases h

theorem isPrefix_of_region? {t r : Text} (h : region? t = some r) : r <+: t := by
  obtain ⟨f, hf, hr⟩ := List.exists_of_findSome?_eq_some h
  simp only [List.mem_cons, List.not_mem_nil, or_false] at hf
  rcases hf with rfl | rfl | rfl | rfl
  · exact isPrefix_of_taggedRegion? hr
  · exact isPrefix_of_taggedRegion? hr
  · exact isPrefix_of_bareRegion? hr
  · exact isPrefix_of_taggedRegion? hr

/-! ## What a reader takes -/

theorem read?_append (u v t : Text) : (read? u t).bind (read? v) = read? (u ++ v) t := by
  by_cases hu : u <+: t
  · obtain ⟨r, rfl⟩ := hu
    rw [read?_eq_some_iff.2 rfl, Option.bind_some]
    apply Option.ext
    intro after
    rw [read?_eq_some_iff, read?_eq_some_iff, List.append_assoc,
      List.append_cancel_left_eq]
  · rw [read?_eq_none hu, read?_eq_none fun h => hu ((List.prefix_append u v).trans h)]
    rfl

theorem afterRegion?_tagged (name t : Text) :
    Element.afterRegion? ⟨name, true⟩ t = (taggedRegion? name t).map fun r => t.drop r.length := by
  unfold Element.afterRegion? Element.afterOpening? taggedRegion?
  simp only [if_true, Option.bind_eq_bind, map_cut?]
  by_cases hp : '<' :: name <+: t
  · rw [if_pos hp]
    obtain ⟨r, rfl⟩ := hp
    have hr : ('<' :: name ++ r).drop (name.length + 1) = r := List.drop_left' rfl
    rw [read?_eq_some_iff.2 rfl, hr, Option.bind_some]
    cases upTo? ['>'] r with
    | none => rfl
    | some s =>
      have hs : ('<' :: name ++ r).drop ('<' :: name ++ s).length = r.drop s.length := by
        rw [List.length_append, ← List.drop_drop, List.drop_left]
      rw [Option.map_some, Option.bind_some, Option.map_some, Option.bind_some, hs]
      cases upTo? ('<' :: '/' :: name ++ ['>']) (r.drop s.length) with
      | none => rfl
      | some content =>
        rw [Option.map_some, Option.bind_some, Option.map_some, List.length_append, ← List.drop_drop, hs]
  · rw [if_neg hp, read?_eq_none hp]
    rfl

theorem afterRegion?_bare (name t : Text) :
    Element.afterRegion? ⟨name, false⟩ t = (bareRegion? name t).map fun r => t.drop r.length := by
  unfold Element.afterRegion? Element.afterOpening? bareRegion?
  simp only [Bool.false_eq_true, if_false, Option.bind_eq_bind, read?_append, map_cut?]
  by_cases hp : '<' :: name ++ ['>'] <+: t
  · rw [if_pos hp]
    obtain ⟨r, rfl⟩ := hp
    rw [read?_eq_some_iff.2 rfl, List.drop_left, Option.bind_some, Option.map_map]
    congr 1
    funext s
    rw [Function.comp_apply, List.length_append, ← List.drop_drop, List.drop_left]
  · rw [if_neg hp, read?_eq_none hp]
    rfl

/-- A region is read just where one starts. -/
theorem readRegion?_eq (t : Text) : readRegion? t = (region? t).map fun r => (r, t.drop r.length) := by
  have hafter : protectedElements.findSome? (·.afterRegion? t) =
      (region? t).map fun r => t.drop r.length := by
    simp only [protectedElements, region?, List.findSome?_cons, List.findSome?_nil,
      afterRegion?_tagged, afterRegion?_bare]
    cases taggedRegion? "script".toList t <;> cases taggedRegion? "style".toList t <;>
      cases bareRegion? "code".toList t <;> cases taggedRegion? "pre".toList t <;> rfl
  rw [readRegion?, hafter, Option.map_map]
  cases hr : region? t with
  | none => rfl
  | some r =>
    obtain ⟨s, rfl⟩ := isPrefix_of_region? hr
    simp

example : readRegion? "<pre id=x>a</code></pre>b".toList =
    some ("<pre id=x>a</code></pre>".toList, "b".toList) := by decide

end Markup

end HanVariants
