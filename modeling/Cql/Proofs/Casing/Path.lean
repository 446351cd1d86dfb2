import Mathlib
import Cql.Proofs.Text.Split
import Cql.Proofs.Token.Legible
import Cql.Statement.Piece

/-!
Paths of plain identifiers. Their physical names are made of characters without meaning, and the
placeholders that stand for their values have names that the scanner reads whole.
-/

namespace Cql

open Token

/-- Plain identifiers with dots between them. -/
def IsPath (s : String) : Prop :=
  ∀ part ∈ Text.Split.splitWhere (· == '.') s.toList, Casing.isPlain part

/-- A path, or the asterisk that stands for all columns. -/
def IsColumn (s : String) : Prop := IsPath s ∨ s = "*"

instance : DecidablePred IsPath := fun s =>
  inferInstanceAs
    (Decidable (∀ part ∈ Text.Split.splitWhere (· == '.') s.toList, Casing.isPlain part))

instance : DecidablePred IsColumn := fun s => inferInstanceAs (Decidable (IsPath s ∨ s = "*"))

/-- Characters without meaning only. -/
def Inert (s : String) : Prop := ∀ c ∈ s.toList, isInert c

instance : DecidablePred Inert := fun s =>
  decidable_of_iff (s.toList.all isInert) List.all_eq_true

theorem Inert.append {s t : String} (hs : Inert s) (ht : Inert t) : Inert (s ++ t) := by
  intro c hc
  rw [String.toList_append] at hc
  exact (List.mem_append.mp hc).elim (hs c) (ht c)

namespace Token

theorem isInert_of_isNameChar {c : Char} (h : isNameChar c) : isInert c :=
  isInert_of_isWordChar (by simp [isWordChar, h])

theorem isName_of_isPlain {cs : List Char} (h : Casing.isPlain cs) : IsName cs := by
  cases cs with
  | nil => simp [Casing.isPlain] at h
  | cons c cs =>
    rw [Casing.isPlain, Bool.and_eq_true] at h
    refine ⟨h.1, fun d hd => ?_⟩
    obtain rfl | hd := List.mem_cons.mp hd
    · exact isNameChar_of_isNameStart h.1
    · exact List.all_eq_true.mp h.2 d hd

end Token

theorem IsPath.isNameChar_of_mem {s : String} {c : Char} (h : IsPath s) (hc : c ∈ s.toList)
    (hdot : c ≠ '.') : isNameChar c := by
  obtain ⟨part, hpart, hmem⟩ : ∃ part ∈ Text.Split.splitWhere (· == '.') s.toList, c ∈ part :=
    Text.Split.exists_mem_splitWhere hc (by simpa using hdot)
  exact (isName_of_isPlain (h part hpart)).2 c hmem

theorem IsPath.inert {s : String} (h : IsPath s) : Inert s := by
  intro c hc
  by_cases hdot : c = '.'
  · subst hdot
    rfl
  · exact isInert_of_isNameChar (h.isNameChar_of_mem hc hdot)

theorem IsColumn.inert {s : String} (h : IsColumn s) : Inert s := by
  obtain h | rfl := h
  · exact h.inert
  · decide

namespace Casing

theorem not_isUpper_or_isLower_of_isDigit {c : Char} (h : c.isDigit) :
    ¬ c.isUpper ∧ ¬ c.isLower := by
  simp only [Char.isDigit, Char.isUpper, Char.isLower, Bool.and_eq_true, decide_eq_true_eq,
    UInt32.le_iff_toNat_le, ge_iff_le] at h ⊢
  have : 'A'.val.toNat = 65 := rfl
  have : 'a'.val.toNat = 97 := rfl
  have : '9'.val.toNat = 57 := rfl
  omega

theorem isAlpha_eq_false_of_isDigit {c : Char} (h : c.isDigit) : c.isAlpha = false := by
  simp [Char.isAlpha, not_isUpper_or_isLower_of_isDigit h]

theorem isAlphanum_toLower {c : Char} (h : c.isAlphanum) : c.toLower.isAlphanum := by
  rw [Char.isAlphanum, Bool.or_eq_true] at h ⊢
  obtain h | h := h
  · exact .inl ((Char.isAlpha_toLower_eq_isAlpha c).trans h)
  · rw [Char.toLower_eq_of_not_isUpper (not_isUpper_or_isLower_of_isDigit h).1]
    exact .inr h

theorem isAlphanum_toUpper {c : Char} (h : c.isAlphanum) : c.toUpper.isAlphanum := by
  rw [Char.isAlphanum, Bool.or_eq_true] at h ⊢
  obtain h | h := h
  · exact .inl ((Char.isAlpha_toUpper_eq_isAlpha c).trans h)
  · rw [Char.toUpper_eq_of_not_isLower (not_isUpper_or_isLower_of_isDigit h).2]
    exact .inr h

namespace Words

theorem mem_of_mem_cut {mode : Mode} {cs word : List Char} {c : Char}
    (hword : word ∈ cut mode cs) (hc : c ∈ word) : c ∈ cs := by
  fun_induction cut mode cs generalizing word with
  | case1 => simp at hword
  | case2 mode d =>
    obtain rfl : word = [d] := by simpa using hword
    exact hc
  | case3 mode d e cs _ ih =>
    obtain rfl | hword := List.mem_cons.mp hword
    · exact List.mem_cons.mpr (.inl (by simpa using hc))
    · exact List.mem_cons_of_mem d (ih hword hc)
  | case4 mode d e cs _ _ ih =>
    obtain rfl | hword := List.mem_cons.mp hword
    · simp at hc
    · obtain rfl | ⟨q, hq, hmem⟩ := Text.Split.mem_grow hword hc
      · exact List.mem_cons_self
      · exact List.mem_cons_of_mem d (ih hq hmem)
  | case5 mode d e cs _ _ ih =>
    obtain rfl | ⟨q, hq, hmem⟩ := Text.Split.mem_grow hword hc
    · exact List.mem_cons_self
    · exact List.mem_cons_of_mem d (ih hq hmem)

theorem isAlphanum_of_mem {cs word : List Char} {c : Char} (hword : word ∈ ofIdentifier cs)
    (hc : c ∈ word) : c.isAlphanum := by
  obtain ⟨part, hpart, hcut⟩ := List.mem_flatMap.mp hword
  have hsep := (Text.Split.mem_of_mem_splitWhere hpart (mem_of_mem_cut hcut hc)).2
  simpa using hsep

theorem isAlphanum_of_mem_lower {word : List Char} {c : Char} (h : ∀ d ∈ word, d.isAlphanum)
    (hc : c ∈ lower word) : c.isAlphanum := by
  obtain ⟨d, hd, rfl⟩ := List.mem_map.mp hc
  exact isAlphanum_toLower (h d hd)

theorem isAlphanum_of_mem_upper {word : List Char} {c : Char} (h : ∀ d ∈ word, d.isAlphanum)
    (hc : c ∈ upper word) : c.isAlphanum := by
  obtain ⟨d, hd, rfl⟩ := List.mem_map.mp hc
  exact isAlphanum_toUpper (h d hd)

theorem isAlphanum_of_mem_capitalize {word : List Char} {c : Char} (h : ∀ d ∈ word, d.isAlphanum)
    (hc : c ∈ capitalize word) : c.isAlphanum := by
  cases word with
  | nil => simp [capitalize] at hc
  | cons d word =>
    obtain rfl | hc := List.mem_cons.mp hc
    · exact isAlphanum_toUpper (h d (by simp))
    · exact isAlphanum_of_mem_lower (fun e he => h e (by simp [he])) hc

theorem isAlphanum_of_mem_lowerCamel {words : List (List Char)} {c : Char}
    (h : ∀ word ∈ words, ∀ d ∈ word, d.isAlphanum) (hc : c ∈ lowerCamel words) : c.isAlphanum := by
  cases words with
  | nil => simp [lowerCamel] at hc
  | cons word words =>
    obtain hc | hc := List.mem_append.mp hc
    · exact isAlphanum_of_mem_lower (h word (by simp)) hc
    · obtain ⟨next, hnext, hmem⟩ := List.mem_flatMap.mp hc
      exact isAlphanum_of_mem_capitalize (h next (by simp [hnext])) hmem

end Words

theorem isNameChar_of_mem_writeWords (casing : Casing) {words : List (List Char)} {c : Char}
    (h : ∀ word ∈ words, ∀ d ∈ word, d.isAlphanum) (hc : c ∈ casing.writeWords words) :
    isNameChar c := by
  have hname : ∀ {d : Char}, d.isAlphanum → isNameChar d := fun hd => by simp [isNameChar, hd]
  have hjoin : ∀ write : List Char → List Char, (∀ word ∈ words, ∀ d ∈ write word, d.isAlphanum) →
      c ∈ Text.Split.join '_' (words.map write) → isNameChar c := by
    intro write hwrite hmem
    obtain rfl | ⟨_, hpart, hmem⟩ := Text.Split.mem_join hmem
    · rfl
    · obtain ⟨word, hword, rfl⟩ := List.mem_map.mp hpart
      exact hname (hwrite word hword c hmem)
  cases casing with
  | lowerUnderscore =>
    exact hjoin _ (fun word hword _ => Words.isAlphanum_of_mem_lower (h word hword)) hc
  | upperUnderscore =>
    exact hjoin _ (fun word hword _ => Words.isAlphanum_of_mem_upper (h word hword)) hc
  | lowerCamel => exact hname (Words.isAlphanum_of_mem_lowerCamel h hc)

/-- A character of a physical name is a dot, a character of names or one of the logical name. -/
theorem mem_physical (casing : Casing) {logical : String} {c : Char}
    (hc : c ∈ (casing.physical logical).toList) :
    c = '.' ∨ isNameChar c ∨ c ∈ logical.toList := by
  simp only [physical, writePath, String.toList_ofList] at hc
  obtain rfl | ⟨_, hpart, hmem⟩ := Text.Split.mem_join hc
  · exact .inl rfl
  · obtain ⟨part, hin, rfl⟩ := List.mem_map.mp hpart
    simp only [writeSegment] at hmem
    split at hmem
    · exact .inr (.inl (casing.isNameChar_of_mem_writeWords
        (fun _ hword _ => Words.isAlphanum_of_mem hword) hmem))
    · exact .inr (.inr (Text.Split.mem_of_mem_splitWhere hin hmem).1)

theorem inert_physical (casing : Casing) {logical : String} (h : Inert logical) :
    Inert (casing.physical logical) := by
  intro c hc
  obtain rfl | hname | hmem := casing.mem_physical hc
  · rfl
  · exact isInert_of_isNameChar hname
  · exact h c hmem

end Casing

theorem isName_append {name taken : List Char} (hname : IsName name)
    (htaken : ∀ c ∈ taken, isNameChar c) : IsName (name ++ taken) := by
  obtain ⟨hstart, hall⟩ := hname
  refine ⟨?_, fun c hc => (List.mem_append.mp hc).elim (hall c) (htaken c)⟩
  cases name with
  | nil => simp at hstart
  | cons c name => simpa using hstart

/-- What stands after the last dot of a column. -/
def lastSegment (column : String) : List Char :=
  (Text.Split.splitWhere (· == '.') column.toList).getLastD []

/-- In the last segment of the column, a digit stands before all letters and underscores. -/
def LeadsWithDigit (column : String) : Prop :=
  ((lastSegment column).find? isNameChar).any Char.isDigit

instance : DecidablePred LeadsWithDigit := fun column =>
  inferInstanceAs (Decidable (((lastSegment column).find? isNameChar).any Char.isDigit = true))

theorem lastSegment_eq (column : String) :
    lastSegment column = (column.toList.reverse.takeWhile (· ≠ '.')).reverse := by
  have hdot : (fun c : Char => decide (c ≠ '.')) = fun c => !(c == '.') := by
    funext c
    by_cases hc : c = '.' <;> simp [hc]
  rw [lastSegment, List.getLastD_eq_getLast?, Text.Split.getLast?_splitWhere, hdot,
    Option.getD_some]

theorem lastSegment_mem (column : String) :
    lastSegment column ∈ Text.Split.splitWhere (· == '.') column.toList := by
  have hne := Text.Split.splitWhere_ne_nil (· == '.') column.toList
  rw [lastSegment, List.getLastD_eq_getLast?, List.getLast?_eq_some_getLast hne, Option.getD_some]
  exact List.getLast_mem hne

theorem isNameChar_of_mem_placeholderName {column : String} {c : Char}
    (hc : c ∈ (placeholderName column).toList) : isNameChar c := by
  simp only [placeholderName] at hc
  split at hc
  · obtain rfl : c = 'p' := by simpa using hc
    rfl
  · rw [String.toList_ofList] at hc
    exact (List.mem_filter.mp hc).2

/-- The name of a placeholder begins with the first letter, digit or underscore of the last
segment. -/
theorem head?_placeholderName (column : String) :
    (placeholderName column).toList.head? =
      some (((lastSegment column).find? isNameChar).getD 'p') := by
  have hfind := List.head?_filter (p := isNameChar) (l := lastSegment column)
  rw [lastSegment_eq] at hfind ⊢
  simp only [placeholderName]
  split
  · rename_i hnone
    rw [← hfind, hnone]
    rfl
  · rename_i name hname
    rw [← hfind, String.toList_ofList]
    cases h : List.filter isNameChar (column.toList.reverse.takeWhile (· ≠ '.')).reverse with
    | nil => exact absurd h hname
    | cons c cs => rfl

theorem isNameStart_iff_of_isNameChar {c : Char} (h : isNameChar c) :
    isNameStart c ↔ ¬c.isDigit := by
  simp only [isNameChar, isNameStart, Char.isAlphanum, Bool.or_eq_true, beq_iff_eq] at h ⊢
  constructor
  · rintro (rfl | halpha) hdigit
    · cases hdigit
    · rw [Casing.isAlpha_eq_false_of_isDigit hdigit] at halpha
      cases halpha
  · exact fun hdigit => h.imp_right fun halnum => halnum.resolve_right hdigit

/-- A column without a digit there has a placeholder with a name that the scanner reads whole. -/
theorem isName_placeholderName_iff (column : String) :
    IsName (placeholderName column).toList ↔ ¬LeadsWithDigit column := by
  have hall : ∀ c ∈ (placeholderName column).toList, isNameChar c := fun c hc =>
    isNameChar_of_mem_placeholderName hc
  rw [IsName, and_iff_left hall, head?_placeholderName, LeadsWithDigit, Option.any_some]
  cases hfind : (lastSegment column).find? isNameChar with
  | none => decide
  | some c => exact isNameStart_iff_of_isNameChar (List.find?_some hfind)

/-- The placeholder for a plain column has a name that the scanner reads whole. -/
theorem isName_placeholderName {column : String} (h : IsColumn column) :
    IsName (placeholderName column).toList := by
  rw [isName_placeholderName_iff, LeadsWithDigit]
  obtain h | rfl := h
  · obtain ⟨hstart, hall⟩ := isName_of_isPlain (h _ (lastSegment_mem column))
    cases hlast : lastSegment column with
    | nil => simp
    | cons c cs =>
      rw [hlast] at hstart hall
      have hc := hall c List.mem_cons_self
      rw [List.find?_cons_of_pos hc]
      exact (isNameStart_iff_of_isNameChar hc).mp hstart
  · decide

theorem isNameChar_toUpper {c : Char} (h : isNameChar c) : isNameChar c.toUpper := by
  simp only [isNameChar, Bool.or_eq_true, beq_iff_eq] at h
  obtain rfl | h := h
  · rfl
  · simp [isNameChar, Casing.isAlphanum_toUpper h]

theorem isName_camelAfter {word name : String} (hword : IsName word.toList)
    (hall : ∀ c ∈ name.toList, isNameChar c) : IsName (camelAfter word name).toList := by
  rw [camelAfter, String.toList_append]
  refine isName_append hword fun c hc => ?_
  cases hchars : name.toList with
  | nil => simp [hchars] at hc
  | cons d ds =>
    rw [hchars] at hc hall
    rw [String.toList_ofList] at hc
    obtain rfl | hc := List.mem_cons.mp hc
    · exact isNameChar_toUpper (hall d (by simp))
    · exact hall c (by simp [hc])

theorem isNameChar_of_mem_toString {n : Nat} {c : Char} (hc : c ∈ (toString n).toList) :
    isNameChar c := by
  rw [Nat.toString_eq_repr, Nat.toList_repr] at hc
  have hdigit : c.isDigit := Nat.isDigit_of_mem_toDigits (by decide) (by decide) hc
  simp [isNameChar, Char.isAlphanum, hdigit]

theorem isName_append_toString {name : String} (h : IsName name.toList) (n : Nat) :
    IsName (name ++ toString n).toList := by
  rw [String.toList_append]
  exact isName_append h fun c => isNameChar_of_mem_toString

end Cql
