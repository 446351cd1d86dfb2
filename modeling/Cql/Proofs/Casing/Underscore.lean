import Cql.Proofs.Casing.Camel
import Cql.Proofs.Casing.Snake
import Cql.Statement.Render

/-!
Physical names with underscores. Such a name has the words that it was put together from, and they
are in one case already, so it is its own physical name.
-/

namespace Cql.Casing

open Text.Split (grow join splitWhere)

variable {c : Char} {cs word : List Char} {words : List (List Char)}

namespace Words

variable {mode : Mode}

theorem tail_grow (c : Char) (words : List (List Char)) : (grow c words).tail = words.tail := by
  cases words <;> rfl

theorem ne_nil_of_mem_grow (h : ∀ word ∈ words.tail, word ≠ []) :
    ∀ word ∈ grow c words, word ≠ [] := by
  cases words with
  | nil => exact List.forall_mem_singleton.mpr (List.cons_ne_nil c [])
  | cons first words => exact List.forall_mem_cons.mpr ⟨List.cons_ne_nil c first, h⟩

/-- Only the word in progress may end before a part. -/
theorem ne_nil_of_mem_tail_cut (mode : Mode) (cs : List Char) :
    ∀ word ∈ (cut mode cs).tail, word ≠ [] := by
  fun_induction cut mode cs with
  | case1 => exact List.forall_mem_nil _
  | case2 => exact List.forall_mem_nil _
  | case3 mode c d cs _ ih =>
    obtain ⟨words, hwords⟩ := exists_cut_start d cs
    rw [hwords, tail_grow] at ih
    rw [List.tail_cons, hwords]
    exact ne_nil_of_mem_grow ih
  | case4 mode c d cs _ _ ih => exact ne_nil_of_mem_grow ih
  | case5 mode c d cs _ _ ih => rwa [tail_grow]

theorem ne_nil_of_mem (h : word ∈ ofIdentifier cs) : word ≠ [] := by
  obtain ⟨part, -, hword⟩ := List.mem_flatMap.mp h
  cases part with
  | nil => cases hword
  | cons c part =>
    obtain ⟨words, hwords⟩ := exists_cut_start c part
    have hothers := ne_nil_of_mem_tail_cut .start (c :: part)
    rw [hwords, tail_grow] at hothers
    rw [hwords] at hword
    exact ne_nil_of_mem_grow hothers word hword

/-- Without small letters no word ends inside a part. -/
theorem cut_of_not_isLower (hmode : mode ≠ .small) (h : ∀ d ∈ c :: cs, ¬ d.isLower) :
    cut mode (c :: cs) = [c :: cs] := by
  induction cs generalizing mode c with
  | nil => rfl
  | cons d cs ih =>
    have hc : ¬ c.isLower := h c (by simp)
    have hd : ¬ d.isLower := h d (by simp)
    have hafter : mode.after c ≠ .small := by
      rw [Mode.after, if_neg hc]
      split
      · exact Mode.noConfusion
      · exact hmode
    have hrest := ih hafter fun e he => h e (List.mem_cons_of_mem c he)
    rw [cut, if_neg fun hbreak => hafter hbreak.1, if_neg fun hbreak => hd hbreak.2.2, hrest]
    rfl

/-- Words with underscores between them, none of which ends inside itself. -/
theorem ofIdentifier_join (hcut : ∀ word ∈ words, cut .start word = [word])
    (halnum : ∀ word ∈ words, ∀ c ∈ word, c.isAlphanum) :
    ofIdentifier (join '_' words) = words := by
  cases words with
  | nil => rfl
  | cons word words =>
    have hsplit : splitWhere (!·.isAlphanum) (join '_' (word :: words)) = word :: words := by
      refine Text.Split.splitWhere_join rfl (List.cons_ne_nil _ _) fun part hpart c hc => ?_
      simp [halnum part hpart c hc]
    rw [ofIdentifier, hsplit, List.flatMap_congr hcut, List.flatMap_singleton']

end Words

/-- The case of all letters in a name with underscores. -/
def letter : Casing → Char → Char
  | .lowerUnderscore => Char.toLower
  | .upperUnderscore => Char.toUpper
  | .lowerCamel => id

variable {casing : Casing}

theorem writeWords_eq_join (h : casing ≠ .lowerCamel) (words : List (List Char)) :
    casing.writeWords words = join '_' (words.map (List.map casing.letter)) := by
  cases casing with
  | lowerUnderscore => rfl
  | upperUnderscore => rfl
  | lowerCamel => exact absurd rfl h

theorem letter_letter (casing : Casing) (c : Char) :
    casing.letter (casing.letter c) = casing.letter c := by
  cases casing with
  | lowerUnderscore => exact Char.toLower_eq_of_not_isUpper (by simp [letter])
  | upperUnderscore => exact Char.toUpper_eq_of_not_isLower (by simp [letter])
  | lowerCamel => rfl

theorem isAlphanum_letter (casing : Casing) (h : c.isAlphanum) : (casing.letter c).isAlphanum := by
  cases casing with
  | lowerUnderscore => exact isAlphanum_toLower h
  | upperUnderscore => exact isAlphanum_toUpper h
  | lowerCamel => exact h

/-- In one case a word ends nowhere inside itself. -/
theorem cut_map_letter (h : casing ≠ .lowerCamel) (hne : word ≠ []) :
    Words.cut .start (word.map casing.letter) = [word.map casing.letter] := by
  cases word with
  | nil => exact absurd rfl hne
  | cons c cs =>
    cases casing with
    | lowerUnderscore =>
      have hsmall : ∀ d ∈ (c :: cs).map lowerUnderscore.letter, ¬ d.isUpper := by
        rw [List.forall_mem_map]
        exact fun e _ => by simp [letter]
      exact Words.cut_of_not_isUpper .start hsmall
    | upperUnderscore =>
      have hcapital : ∀ d ∈ (c :: cs).map upperUnderscore.letter, ¬ d.isLower := by
        rw [List.forall_mem_map]
        exact fun e _ => by simp [letter]
      exact Words.cut_of_not_isLower (by simp) hcapital
    | lowerCamel => exact absurd rfl h

/-- The words of a written name are the words that were written. -/
theorem ofIdentifier_writeWords (h : casing ≠ .lowerCamel) (cs : List Char) :
    Words.ofIdentifier (casing.writeWords (Words.ofIdentifier cs)) =
      (Words.ofIdentifier cs).map (List.map casing.letter) := by
  rw [writeWords_eq_join h]
  refine Words.ofIdentifier_join (fun word hword => ?_) fun word hword c hc => ?_
  · obtain ⟨own, hown, rfl⟩ := List.mem_map.mp hword
    exact cut_map_letter h (Words.ne_nil_of_mem hown)
  · obtain ⟨own, hown, rfl⟩ := List.mem_map.mp hword
    obtain ⟨d, hd, rfl⟩ := List.mem_map.mp hc
    exact casing.isAlphanum_letter (Words.isAlphanum_of_mem hown hd)

theorem writeSegment_writeSegment (h : casing ≠ .lowerCamel) (segment : List Char) :
    casing.writeSegment (casing.writeSegment segment) = casing.writeSegment segment := by
  have hwritten : casing.writeWords (Words.ofIdentifier (casing.writeWords
      (Words.ofIdentifier segment))) = casing.writeWords (Words.ofIdentifier segment) := by
    have hletter : List.map casing.letter ∘ List.map casing.letter = List.map casing.letter := by
      funext word
      simp [casing.letter_letter]
    rw [ofIdentifier_writeWords h, writeWords_eq_join h, writeWords_eq_join h, List.map_map,
      hletter]
  by_cases hplain : isPlain segment
  · rw [writeSegment.eq_1 casing segment, if_pos hplain, writeSegment, hwritten, ite_self]
  · have hkept : casing.writeSegment segment = segment := by rw [writeSegment, if_neg hplain]
    rw [hkept, hkept]

/-- Writing makes no new segments. -/
theorem dot_notMem_writeSegment (casing : Casing) {segment : List Char} (h : '.' ∉ segment) :
    '.' ∉ casing.writeSegment segment := by
  rw [writeSegment]
  split
  · intro hdot
    have hname : Token.isNameChar '.' := casing.isNameChar_of_mem_writeWords
      (fun _ hword _ => Words.isAlphanum_of_mem hword) hdot
    cases hname
  · exact h

theorem splitWhere_writePath (casing : Casing) (path : List Char) :
    splitWhere (· == '.') (casing.writePath path) =
      (splitWhere (· == '.') path).map casing.writeSegment := by
  refine Text.Split.splitWhere_join rfl ?_ fun part hpart c hc => beq_false_of_ne ?_
  · simp [Text.Split.splitWhere_ne_nil]
  · rintro rfl
    obtain ⟨segment, hsegment, rfl⟩ := List.mem_map.mp hpart
    refine casing.dot_notMem_writeSegment (fun hdot => ?_) hc
    cases (Text.Split.mem_of_mem_splitWhere hsegment hdot).2

theorem writePath_writePath (h : casing ≠ .lowerCamel) (path : List Char) :
    casing.writePath (casing.writePath path) = casing.writePath path := by
  rw [writePath.eq_1 casing (casing.writePath path), splitWhere_writePath, List.map_map]
  congr 2
  funext segment
  exact writeSegment_writeSegment h segment

/-- A word of small letters and digits is another one with capitals only. -/
theorem writePath_snakeWord (casing : Casing) (h : IsSnakeWord word) :
    casing.writePath word = if casing = .upperUnderscore then Words.upper word else word := by
  have halnum : ∀ c ∈ word, c.isAlphanum := fun c hc => h.isAlphanum hc
  have hplain : isPlain word := by
    cases word with
    | nil => cases h.1
    | cons c cs =>
      have hc : ¬c.isDigit := fun hdigit => (not_isUpper_or_isLower_of_isDigit hdigit).2 h.1
      rw [isPlain_cons halnum]
      simpa using hc
  have hwords : Words.ofIdentifier word = [word] := by
    have hsplit : splitWhere (!·.isAlphanum) word = [word] :=
      Text.Split.splitWhere_of_forall fun c hc => by simp [halnum c hc]
    rw [Words.ofIdentifier, hsplit, List.flatMap_singleton, Words.cut_snakeWord h]
  have hlower : Words.lower word = word := Words.lower_eq_self fun c hc => h.not_isUpper hc
  rw [writePath_of_isAlphanum _ halnum, writeSegment, if_pos hplain, hwords]
  cases casing with
  | lowerUnderscore => simpa [writeWords, Words.lowerSnake, join] using hlower
  | upperUnderscore => simp [writeWords, Words.upperSnake, join]
  | lowerCamel => simpa [writeWords, Words.lowerCamel] using hlower

theorem upper_ne_self (h : IsSnakeWord word) : Words.upper word ≠ word := by
  cases word with
  | nil => cases h.1
  | cons c cs =>
    intro heq
    have hc : c.isLower := h.1
    have hsame : c.toUpper = c := (List.cons.inj heq).1
    rw [← hsame, Char.isLower_toUpper_eq_false] at hc
    cases hc

/-- A physical name with underscores is its own physical name, so it stays as it is where a column
is resolved that the entity does not have. -/
theorem physical_physical (h : casing ≠ .lowerCamel) (logical : String) :
    casing.physical (casing.physical logical) = casing.physical logical ∧
      ∀ scope : Scope, scope.casing = casing →
        scope.columns.bind (·.get? (casing.physical logical)) = none →
          scope.resolve (casing.physical logical) = casing.physical logical := by
  have hself : casing.physical (casing.physical logical) = casing.physical logical := by
    rw [physical.eq_1 casing (casing.physical logical), physical, String.toList_ofList,
      writePath_writePath h]
  refine ⟨hself, fun scope hcasing hcolumn => ?_⟩
  rw [Scope.resolve, hcolumn, hcasing]
  exact hself

/-- The first segment loses the underscore before its digits and the second one all of its
characters. -/
theorem physical_physical_stripped :
    let name := "_2ndLine1.___.\"aB\".homeURLPath"
    Casing.upperUnderscore.physical name = "2ND_LINE1..\"aB\".HOME_URL_PATH" ∧
      Casing.upperUnderscore.physical "2ND_LINE1..\"aB\".HOME_URL_PATH" =
        "2ND_LINE1..\"aB\".HOME_URL_PATH" ∧
      (Scope.mk .upperUnderscore (some ⟨[("id", "ACCOUNT_ID")]⟩)).resolve
        "2ND_LINE1..\"aB\".HOME_URL_PATH" = "2ND_LINE1..\"aB\".HOME_URL_PATH" := by
  intro name
  have hname : Casing.upperUnderscore.physical name = "2ND_LINE1..\"aB\".HOME_URL_PATH" := by
    decide +kernel
  have hcasing : Casing.upperUnderscore ≠ .lowerCamel := Casing.noConfusion
  obtain ⟨hself, hresolve⟩ := physical_physical hcasing name
  have hscope := hresolve (Scope.mk .upperUnderscore (some ⟨[("id", "ACCOUNT_ID")]⟩)) rfl
  rw [hname] at hself hscope
  exact ⟨hname, hself, hscope (by decide +kernel)⟩

end Cql.Casing
