import Cql.Proofs.Text.Split
import Cql.Proofs.Token.Extent

/-!
Words. A text is one word, whatever stands behind it that goes on with no word, if names stand in it
with dots between them.
-/

namespace Cql.Token

open Text.Split (join splitWhere)

/-- A letter, and then characters of words. -/
def IsLettered (part : List Char) : Prop := part.head?.any Char.isAlpha ∧ ∀ c ∈ part, isWordChar c

variable {c : Char} {cs taken rest part : List Char} {parts : List (List Char)} {kind : Kind}

theorem isNameStart_of_isAlpha (h : c.isAlpha) : isNameStart c := by
  simp [isNameStart, h]

theorem IsLettered.head?_append (h : IsLettered part) (rest : List Char) :
    (part ++ rest).head?.any isNameStart := by
  cases part with
  | nil => cases h.1
  | cons c cs => exact isNameStart_of_isAlpha h.1

theorem cutWord_of_not_extendsWord (h : ¬ExtendsWord rest) : cutWord rest = ([], rest) := by
  cases rest with
  | nil => rfl
  | cons c cs =>
    rw [cutWord]
    exact if_neg h

/-- What a word leaves does not go on with it. -/
theorem not_extendsWord_cutWord (cs : List Char) : ¬ExtendsWord (cutWord cs).2 := by
  fun_induction cutWord cs with
  | case1 => exact id
  | case2 c cs _ ih => exact ih
  | case3 c cs hends => exact hends

theorem cutWord_append_of_all (h : ∀ c ∈ taken, isWordChar c) (rest : List Char) :
    cutWord (taken ++ rest) = (taken ++ (cutWord rest).1, (cutWord rest).2) := by
  induction taken with
  | nil => rfl
  | cons c taken ih =>
    rw [List.cons_append, cutWord, if_pos (.inl (h c (by simp))), ih fun d hd => h d (by simp [hd])]
    rfl

/-- More names after a dot each. -/
theorem cutWord_dotted (hparts : ∀ part ∈ parts, IsLettered part) (hrest : ¬ExtendsWord rest) :
    cutWord (parts.flatMap ('.' :: ·) ++ rest) = (parts.flatMap ('.' :: ·), rest) := by
  induction parts with
  | nil => exact cutWord_of_not_extendsWord hrest
  | cons part parts ih =>
    have hpart := hparts part (by simp)
    have hlater := ih fun other hother => hparts other (by simp [hother])
    have hdot : '.' = '.' ∧ (part ++ (parts.flatMap ('.' :: ·) ++ rest)).head?.any isNameStart :=
      ⟨rfl, hpart.head?_append _⟩
    rw [List.flatMap_cons, List.append_assoc, List.cons_append, cutWord, if_pos (.inr hdot),
      cutWord_append_of_all hpart.2, hlater]
    rfl

theorem cutWord_join (hne : parts ≠ []) (hparts : ∀ part ∈ parts, IsLettered part)
    (hrest : ¬ExtendsWord rest) : cutWord (join '.' parts ++ rest) = (join '.' parts, rest) := by
  cases parts with
  | nil => exact absurd rfl hne
  | cons part parts =>
    have hothers : ∀ other ∈ parts, IsLettered other := fun other h => hparts other (by simp [h])
    rw [Text.Split.join_cons, List.append_assoc, cutWord_append_of_all (hparts part (by simp)).2,
      cutWord_dotted hothers hrest]

theorem form_of_isAlpha (h : c.isAlpha) (after : Option Char) : form c after = .word := by
  have hblank : ¬Text.Blank.isAscii c := by
    rw [IsBlind.isAscii.letters c h]
    exact Bool.false_ne_true
  have hne : ∀ d : Char, d.isAlpha = false → c ≠ d := by
    rintro d hd rfl
    rw [h] at hd
    cases hd
  simp [form, hblank, hne, isNameStart_of_isAlpha h]

/-- Names with dots between them are the first token where no word goes on after them. -/
theorem next_join (hchars : join '.' parts = c :: cs) (hparts : ∀ part ∈ parts, IsLettered part)
    (hletter : c.isAlpha) (hrest : ¬ExtendsWord rest) :
    next c (cs ++ rest) = .ok (.word, cs, rest) := by
  have hne : parts ≠ [] := by
    rintro rfl
    cases hchars
  have hcut := cutWord_join hne hparts hrest
  have hword : isWordChar c := isWordChar_of_isNameStart (isNameStart_of_isAlpha hletter)
  rw [hchars, List.cons_append, cutWord, if_pos (.inl hword)] at hcut
  have hcs : cutWord (cs ++ rest) = (cs, rest) := by
    obtain ⟨htaken, hrest⟩ := Prod.mk.inj hcut
    exact Prod.ext (List.cons.inj htaken).2 hrest
  rw [next_eq, form_of_isAlpha hletter, Form.cut, hcs]
  rfl

theorem mem_cutWord (h : c ∈ (cutWord cs).1) : isWordChar c ∨ c = '.' := by
  fun_induction cutWord cs with
  | case1 => cases h
  | case2 d cs hgoes ih =>
    obtain rfl | h := List.mem_cons.mp h
    · exact hgoes.imp_right And.left
    · exact ih h
  | case3 => cases h

theorem next_word (h : next c cs = .ok (.word, taken, rest)) :
    isNameStart c ∧ cutWord cs = (taken, rest) := by
  obtain ⟨hkind, hcut⟩ := next_eq_ok_iff.mp h
  have hopens := opens_form c cs.head?
  generalize form c cs.head? = f at hkind hcut hopens
  cases f with
  | word => exact ⟨hopens, Except.ok.inj hcut⟩
  | _ => cases hkind

theorem isAlpha_of_splitWhere
    (h : ∀ part ∈ splitWhere (· == '.') (c :: cs), part.head?.any Char.isAlpha) : c.isAlpha := by
  obtain ⟨first, others, hsplit⟩ :=
    List.exists_cons_of_ne_nil (Text.Split.splitWhere_ne_nil (· == '.') cs)
  rw [Text.Split.splitWhere_cons hsplit] at h
  split at h
  · exact absurd (h [] List.mem_cons_self) (by simp)
  · exact h (c :: first) List.mem_cons_self

/-- The names of a word that all begin with letters. -/
theorem isLettered_of_mem_splitWhere (h : next c cs = .ok (.word, taken, rest))
    (hpart : part ∈ splitWhere (· == '.') (c :: taken)) (hletter : part.head?.any Char.isAlpha) :
    IsLettered part := by
  refine ⟨hletter, fun d hd => ?_⟩
  obtain ⟨hmem, hdot⟩ := Text.Split.mem_of_mem_splitWhere hpart hd
  obtain ⟨hstart, hcut⟩ := next_word h
  obtain rfl | hmem := List.mem_cons.mp hmem
  · exact isWordChar_of_isNameStart hstart
  · have hword : isWordChar d ∨ d = '.' := mem_cutWord (by rwa [hcut])
    exact hword.resolve_right fun heq => by simp [heq] at hdot

end Cql.Token
