import Cql.Proofs.Casing.Path

/-!
Names in snake case, whose words begin with small letters. Camel case loses nothing of such a name:
each word after the first has a capital where it begins, and there are no other capitals. So names
in snake case that differ are told apart in camel case too.
-/

namespace Cql.Casing

open Text.Split (join splitWhere)

/-- A small letter, then small letters and digits. -/
def IsSnakeWord (word : List Char) : Prop :=
  word.head?.any Char.isLower ∧ ∀ c ∈ word, c.isLower ∨ c.isDigit

/-- Words of this kind with single underscores between them. -/
def IsSnake (cs : List Char) : Prop := ∀ word ∈ splitWhere (· == '_') cs, IsSnakeWord word

instance : DecidablePred IsSnakeWord := fun word =>
  decidable_of_iff (word.head?.any Char.isLower ∧ word.all fun c => c.isLower || c.isDigit)
    (by simp [IsSnakeWord])

instance : DecidablePred IsSnake := fun cs =>
  inferInstanceAs (Decidable (∀ word ∈ splitWhere (· == '_') cs, IsSnakeWord word))

variable {cs word : List Char} {words : List (List Char)}

namespace IsSnakeWord

theorem not_isUpper (h : IsSnakeWord word) {c : Char} (hc : c ∈ word) : ¬ c.isUpper := by
  obtain hlower | hdigit := h.2 c hc
  · exact Char.not_isUpper_of_isLower hlower
  · exact (not_isUpper_or_isLower_of_isDigit hdigit).1

theorem isAlphanum (h : IsSnakeWord word) {c : Char} (hc : c ∈ word) : c.isAlphanum := by
  obtain hlower | hdigit := h.2 c hc
  · simp [Char.isAlphanum, Char.isAlpha, hlower]
  · simp [Char.isAlphanum, hdigit]

end IsSnakeWord

namespace Words

theorem lower_eq_self (h : ∀ c ∈ word, ¬ c.isUpper) : Words.lower word = word :=
  (List.map_congr_left fun c hc => Char.toLower_eq_of_not_isUpper (h c hc)).trans (List.map_id word)

theorem cut_of_not_isUpper (mode : Mode) {c : Char} (h : ∀ d ∈ c :: cs, ¬ d.isUpper) :
    cut mode (c :: cs) = [c :: cs] := by
  induction cs generalizing mode c with
  | nil => rfl
  | cons d cs ih =>
    have hc : ¬ c.isUpper := h c (by simp)
    have hd : ¬ d.isUpper := h d (by simp)
    have hrest := ih (mode.after c) fun e he => h e (List.mem_cons_of_mem c he)
    rw [cut, if_neg fun hbreak => hd hbreak.2, if_neg fun hbreak => hc hbreak.2.1, hrest]
    rfl

theorem cut_snakeWord (h : IsSnakeWord word) : cut .start word = [word] := by
  cases word with
  | nil => cases h.1
  | cons c cs => exact cut_of_not_isUpper .start fun d hd => h.not_isUpper hd

end Words

theorem IsSnake.eq_or_isAlphanum (h : IsSnake cs) {c : Char} (hc : c ∈ cs) :
    c = '_' ∨ c.isAlphanum := by
  by_cases hmark : c = '_'
  · exact .inl hmark
  · obtain ⟨word, hword, hmem⟩ : ∃ word ∈ splitWhere (· == '_') cs, c ∈ word :=
      Text.Split.exists_mem_splitWhere hc (by simpa using hmark)
    exact .inr ((h word hword).isAlphanum hmem)

/-- The words of a name in snake case are those between the underscores. -/
theorem ofIdentifier_snake (h : IsSnake cs) :
    Words.ofIdentifier cs = splitWhere (· == '_') cs := by
  have hsplit : splitWhere (!·.isAlphanum) cs = splitWhere (· == '_') cs := by
    refine Text.Split.splitWhere_congr fun c hc => ?_
    obtain rfl | halnum := h.eq_or_isAlphanum hc
    · rfl
    · have hmark : c ≠ '_' := by
        rintro rfl
        cases halnum
      simp [halnum, hmark]
  have hwords : ∀ word ∈ splitWhere (· == '_') cs, Words.cut .start word = [word] :=
    fun word hword => Words.cut_snakeWord (h word hword)
  rw [Words.ofIdentifier, hsplit, List.flatMap_congr hwords, List.flatMap_singleton']

/-- An underscore and the small letter in place of each capital. -/
def uncapitalized (cs : List Char) : List Char :=
  cs.flatMap fun c => if c.isUpper then ['_', c.toLower] else [c]

theorem uncapitalized_word (h : ∀ c ∈ word, ¬ c.isUpper) : uncapitalized word = word := by
  have hchars : ∀ c ∈ word, (if c.isUpper then ['_', c.toLower] else [c]) = [c] :=
    fun c hc => if_neg (h c hc)
  rw [uncapitalized, List.flatMap_congr hchars, List.flatMap_singleton']

theorem uncapitalized_capitalize (h : IsSnakeWord word) :
    uncapitalized (Words.capitalize word) = '_' :: word := by
  cases word with
  | nil => cases h.1
  | cons c cs =>
    have hc : c.isLower := h.1
    have hfirst : c.toUpper.isUpper := by
      rw [Char.isUpper_toUpper_eq_isAlpha]
      simp [Char.isAlpha, hc]
    have hback : c.toUpper.toLower = c := by
      rw [Char.toLower_toUpper_eq_toLower,
        Char.toLower_eq_of_not_isUpper (Char.not_isUpper_of_isLower hc)]
    have hothers : ∀ d ∈ cs, ¬ d.isUpper := fun d hd => h.not_isUpper (by simp [hd])
    rw [Words.capitalize, Words.lower_eq_self hothers, uncapitalized, List.flatMap_cons,
      if_pos hfirst, hback]
    exact congrArg ('_' :: c :: ·) (uncapitalized_word hothers)

theorem uncapitalized_append (cs ds : List Char) :
    uncapitalized (cs ++ ds) = uncapitalized cs ++ uncapitalized ds :=
  List.flatMap_append

/-- The words of a name in camel case are those that it was put together from. -/
theorem uncapitalized_lowerCamel (hne : words ≠ []) (h : ∀ word ∈ words, IsSnakeWord word) :
    uncapitalized (Words.lowerCamel words) = join '_' words := by
  cases words with
  | nil => exact absurd rfl hne
  | cons word words =>
    have hword := h word (by simp)
    have hsmall : ∀ c ∈ word, ¬ c.isUpper := fun c hc => hword.not_isUpper hc
    have hothers : ∀ other ∈ words, uncapitalized (Words.capitalize other) = '_' :: other :=
      fun other hother => uncapitalized_capitalize (h other (by simp [hother]))
    rw [Words.lowerCamel, uncapitalized_append, Words.lower_eq_self hsmall,
      uncapitalized_word hsmall, Text.Split.join_cons]
    rw [uncapitalized, List.flatMap_assoc]
    exact congrArg (word ++ ·) (List.flatMap_congr hothers)

theorem uncapitalized_snake (h : IsSnake cs) :
    uncapitalized (Words.lowerCamel (Words.ofIdentifier cs)) = cs := by
  rw [ofIdentifier_snake h, uncapitalized_lowerCamel (Text.Split.splitWhere_ne_nil _ _) h,
    Text.Split.join_splitWhere]

end Cql.Casing
