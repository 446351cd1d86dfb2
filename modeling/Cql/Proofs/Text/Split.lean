import Cql.Text.Split

/-!
The parts of a text that is cut at separators.
-/

namespace Cql.Text.Split

variable {α : Type} {isSeparator : α → Bool} {as part : List α} {a separator : α}

theorem mem_grow {b : α} {parts : List (List α)} (hpart : part ∈ grow b parts) (ha : a ∈ part) :
    a = b ∨ ∃ q ∈ parts, a ∈ q := by
  cases parts with
  | nil =>
    obtain rfl : part = [b] := by simpa [grow] using hpart
    exact .inl (by simpa using ha)
  | cons q parts =>
    obtain rfl | hpart := List.mem_cons.mp hpart
    · exact (List.mem_cons.mp ha).imp_right fun h => ⟨q, by simp, h⟩
    · exact .inr ⟨part, by simp [hpart], ha⟩

theorem splitWhere_ne_nil (isSeparator : α → Bool) (as : List α) :
    splitWhere isSeparator as ≠ [] := by
  induction as with
  | nil => simp [splitWhere]
  | cons a as ih =>
    cases h : splitWhere isSeparator as with
    | nil => exact absurd h ih
    | cons => by_cases ha : isSeparator a <;> simp [splitWhere, ha, h, grow]

theorem splitWhere_cons {first : List α} {others : List (List α)}
    (h : splitWhere isSeparator as = first :: others) (a : α) :
    splitWhere isSeparator (a :: as) =
      if isSeparator a then [] :: first :: others else (a :: first) :: others := by
  simp [splitWhere, h, grow]

theorem mem_of_mem_splitWhere (hpart : part ∈ splitWhere isSeparator as) (ha : a ∈ part) :
    a ∈ as ∧ isSeparator a = false := by
  induction as generalizing part with
  | nil =>
    obtain rfl : part = [] := by simpa [splitWhere] using hpart
    simp at ha
  | cons b as ih =>
    cases h : splitWhere isSeparator as with
    | nil => exact absurd h (splitWhere_ne_nil _ _)
    | cons first others =>
      rw [splitWhere_cons h] at hpart
      rw [h] at ih
      split at hpart
      · obtain rfl | hpart := List.mem_cons.mp hpart
        · simp at ha
        · exact ⟨List.mem_cons_of_mem _ (ih hpart ha).1, (ih hpart ha).2⟩
      · rename_i hb
        obtain rfl | hpart := List.mem_cons.mp hpart
        · obtain rfl | ha := List.mem_cons.mp ha
          · exact ⟨List.mem_cons_self, by simpa using hb⟩
          · have := ih List.mem_cons_self ha
            exact ⟨List.mem_cons_of_mem _ this.1, this.2⟩
        · have := ih (List.mem_cons_of_mem _ hpart) ha
          exact ⟨List.mem_cons_of_mem _ this.1, this.2⟩

theorem exists_mem_splitWhere (ha : a ∈ as) (hsep : isSeparator a = false) :
    ∃ part ∈ splitWhere isSeparator as, a ∈ part := by
  induction as with
  | nil => simp at ha
  | cons b as ih =>
    cases h : splitWhere isSeparator as with
    | nil => exact absurd h (splitWhere_ne_nil _ _)
    | cons first others =>
      rw [h] at ih
      rw [splitWhere_cons h]
      obtain rfl | ha := List.mem_cons.mp ha
      · exact ⟨a :: first, by simp [hsep], by simp⟩
      · obtain ⟨part, hpart, hmem⟩ := ih ha
        split
        · exact ⟨part, by simp [List.mem_cons.mp hpart], hmem⟩
        · obtain rfl | hpart := List.mem_cons.mp hpart
          · exact ⟨b :: part, by simp, by simp [hmem]⟩
          · exact ⟨part, by simp [hpart], hmem⟩

theorem splitWhere_of_forall (h : ∀ a ∈ as, isSeparator a = false) :
    splitWhere isSeparator as = [as] := by
  induction as with
  | nil => rfl
  | cons a as ih =>
    have hrest := ih fun b hb => h b (List.mem_cons_of_mem _ hb)
    rw [splitWhere_cons hrest, h a List.mem_cons_self]
    rfl

theorem splitWhere_append (hsep : isSeparator a) (as bs : List α) :
    splitWhere isSeparator (as ++ a :: bs) =
      splitWhere isSeparator as ++ splitWhere isSeparator bs := by
  induction as with
  | nil => simp [splitWhere, hsep]
  | cons b as ih =>
    cases h : splitWhere isSeparator as with
    | nil => exact absurd h (splitWhere_ne_nil _ _)
    | cons first others =>
      rw [h, List.cons_append] at ih
      rw [List.cons_append, splitWhere_cons ih, splitWhere_cons h]
      split <;> rfl

/-- What stands after the last separator is the last part. -/
theorem getLast?_splitWhere (isSeparator : α → Bool) (as : List α) :
    (splitWhere isSeparator as).getLast? =
      some (as.reverse.takeWhile (!isSeparator ·)).reverse := by
  have happ := List.takeWhile_append_dropWhile (p := (!isSeparator ·)) (l := as.reverse)
  have hnone : ∀ a ∈ (as.reverse.takeWhile (!isSeparator ·)).reverse, isSeparator a = false := by
    intro a ha
    have hall := List.all_eq_true.mp List.all_takeWhile a (List.mem_reverse.mp ha)
    simpa using hall
  generalize as.reverse.takeWhile (!isSeparator ·) = last at happ hnone ⊢
  cases hrest : as.reverse.dropWhile (!isSeparator ·) with
  | nil =>
    have has : as = last.reverse := by
      rw [← List.reverse_reverse as, ← happ, hrest, List.append_nil]
    rw [has, splitWhere_of_forall hnone, List.getLast?_singleton]
  | cons a rest =>
    have has : as = rest.reverse ++ a :: last.reverse := by
      rw [← List.reverse_reverse as, ← happ, hrest]
      simp
    have hsep : isSeparator a := by
      have hhead := List.head?_dropWhile_not (!isSeparator ·) as.reverse
      simpa [hrest] using hhead
    rw [has, splitWhere_append hsep, splitWhere_of_forall hnone, List.getLast?_concat]

theorem splitWhere_congr {isSeparator' : α → Bool}
    (h : ∀ a ∈ as, isSeparator a = isSeparator' a) :
    splitWhere isSeparator as = splitWhere isSeparator' as := by
  induction as with
  | nil => rfl
  | cons a as ih =>
    rw [splitWhere, splitWhere, h a List.mem_cons_self,
      ih fun b hb => h b (List.mem_cons_of_mem a hb)]

theorem join_cons_cons (separator : α) (part next : List α) (parts : List (List α)) :
    join separator (part :: next :: parts) =
      part ++ separator :: join separator (next :: parts) := by
  simp [join, List.intercalate]

theorem join_cons (separator : α) (part : List α) (parts : List (List α)) :
    join separator (part :: parts) = part ++ parts.flatMap (separator :: ·) := by
  induction parts generalizing part with
  | nil => simp [join]
  | cons next parts ih => rw [join_cons_cons, ih, List.flatMap_cons, List.cons_append]

/-- Parts without separators are what a text made of them is cut into. -/
theorem splitWhere_join {parts : List (List α)} (hsep : isSeparator separator) (hne : parts ≠ [])
    (h : ∀ part ∈ parts, ∀ a ∈ part, isSeparator a = false) :
    splitWhere isSeparator (join separator parts) = parts := by
  induction parts with
  | nil => exact absurd rfl hne
  | cons part parts ih =>
    have hpart : splitWhere isSeparator part = [part] := splitWhere_of_forall (h part (by simp))
    cases parts with
    | nil => rwa [join_cons, List.flatMap_nil, List.append_nil]
    | cons next parts =>
      have hothers := ih (List.cons_ne_nil _ _) fun other hother => h other (by simp [hother])
      rw [join_cons_cons, splitWhere_append hsep, hpart, hothers, List.singleton_append]

/-- Cutting and joining at one separator gives the text back. -/
theorem join_splitWhere [BEq α] [LawfulBEq α] (separator : α) (as : List α) :
    join separator (splitWhere (· == separator) as) = as := by
  induction as with
  | nil => rfl
  | cons a as ih =>
    cases h : splitWhere (· == separator) as with
    | nil => exact absurd h (splitWhere_ne_nil _ _)
    | cons first others =>
      rw [h, join_cons] at ih
      rw [splitWhere_cons h, ← ih]
      split
      · rename_i ha
        rw [join_cons_cons, join_cons, List.nil_append, eq_of_beq ha]
      · rw [join_cons, List.cons_append]

theorem mem_join {parts : List (List α)} (h : a ∈ join separator parts) :
    a = separator ∨ ∃ part ∈ parts, a ∈ part := by
  induction parts with
  | nil => simp [join] at h
  | cons part parts ih =>
    cases parts with
    | nil => exact .inr ⟨part, by simp, by simpa [join] using h⟩
    | cons next parts =>
      rw [join_cons_cons] at h
      obtain h | h := List.mem_append.mp h
      · exact .inr ⟨part, by simp, h⟩
      obtain rfl | h := List.mem_cons.mp h
      · exact .inl rfl
      · exact (ih h).imp_right fun ⟨q, hq, hmem⟩ => ⟨q, by simp [List.mem_cons.mp hq], hmem⟩

end Cql.Text.Split
