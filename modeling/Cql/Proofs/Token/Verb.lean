import Mathlib
import Cql.Proofs.Token.Leading

/-!
The verb of a text is read off its tokens: it is the letters that the first token starts with which
is neither blank nor a comment nor an opening parenthesis. A block comment before the verb must not
begin with an asterisk between two slashes, since looking for the verb takes it to end there.
-/

namespace Cql.Token

variable {c : Char} {cs taken rest : List Char} {kind : Kind} {t : Token} {ts : List Token}

/-- The token at which a statement starts. -/
def first? (ts : List Token) : Option Token := ts.find? fun t => !(t.isTrivia || t.isOpenParen)

/-- The letters that a token starts with, if it starts with a letter. -/
def letters? (t : Token) : Option (List Char) :=
  match t.chars.takeWhile Char.isAlpha with
  | [] => none
  | word => some word

/-- All blanks of the text separate tokens. -/
def HasPlainBlanks (cs : List Char) : Prop :=
  ∀ c ∈ cs, Text.Blank.isUnicode c → Text.Blank.isAscii c

instance : DecidablePred HasPlainBlanks := fun cs =>
  decidable_of_iff (cs.all fun c => !Text.Blank.isUnicode c || Text.Blank.isAscii c)
    (by simp [HasPlainBlanks, imp_iff_not_or])

theorem next_of_isAlpha (hc : c.isAlpha) (cs : List Char) :
    next c cs = .ok (.word, cutWord cs) := by
  have hne : ∀ d, d.isAlpha = false → c ≠ d := by
    rintro _ hd rfl
    rw [hc] at hd
    cases hd
  have hblank : Text.Blank.isAscii c = false := by
    simp [Text.Blank.isAscii, hne ' ' rfl, hne '\t' rfl, hne '\n' rfl, hne '\x0c' rfl, hne '\r' rfl]
  have hname : isNameStart c = true := by simp [isNameStart, hc]
  simp only [next, hblank, hname, hne '-' rfl, hne '/' rfl, hne '\'' rfl, hne '"' rfl, hne '?' rfl,
    hne ':' rfl, hne '#' rfl, false_and, or_self, if_false, if_true, Bool.false_eq_true]

/-- A word goes on as long as there are letters. -/
theorem takeWhile_cutWord (cs : List Char) :
    cs.takeWhile Char.isAlpha = (cutWord cs).1.takeWhile Char.isAlpha := by
  fun_induction cutWord cs with
  | case1 => rfl
  | case2 c cs hword ih => simp only [Cut.cons, List.takeWhile_cons, ih]
  | case3 c cs hword =>
    have hc : c.isAlpha = false := by
      by_contra halpha
      simp [isWordChar, isNameChar, Char.isAlphanum, halpha] at hword
    simp [hc]

/-- The letters at the start of a text belong to its first token. -/
theorem takeWhile_next (h : next c cs = .ok (kind, taken, rest)) :
    (c :: cs).takeWhile Char.isAlpha = (c :: taken).takeWhile Char.isAlpha := by
  by_cases hc : c.isAlpha
  · rw [next_of_isAlpha hc] at h
    obtain ⟨-, hcut⟩ := Prod.mk.inj (Except.ok.inj h)
    rw [List.takeWhile_cons_of_pos hc, List.takeWhile_cons_of_pos hc, takeWhile_cutWord, hcut]
  · rw [List.takeWhile_cons_of_neg hc, List.takeWhile_cons_of_neg hc]

theorem takeWhile_scan (h : scan cs = (ts, none)) :
    cs.takeWhile Char.isAlpha = (ts.head?.map fun t => t.chars.takeWhile Char.isAlpha).getD [] := by
  cases cs with
  | nil =>
    rw [scan] at h
    cases h
    rfl
  | cons c cs =>
    rw [scan] at h
    split at h
    · cases h
    · rename_i kind taken rest hnext
      obtain ⟨rfl, -⟩ := Prod.mk.inj h
      exact takeWhile_next hnext

/-- Nothing else stands before the verb than blanks, comments and opening parentheses. -/
theorem leads_eq (h : scan cs = (ts, none)) (hblank : HasPlainBlanks cs) (ht : t ∈ ts) :
    t.leads = (t.isTrivia || t.isOpenParen) := by
  obtain ⟨c, ds, taken, rest, hchars, hnext⟩ := exists_next_of_mem_scan h ht
  have hother : ¬(t.kind = .punctuation ∧ t.chars.all Text.Blank.isUnicode) := by
    rintro ⟨hkind, hall⟩
    have hmem : c ∈ cs := by
      rw [← flatten_scan h, flatten, List.mem_flatMap]
      exact ⟨t, ht, by simp [hchars]⟩
    have hc : Text.Blank.isUnicode c := by
      rw [hchars] at hall
      exact List.all_eq_true.mp hall c List.mem_cons_self
    rw [next, if_pos (hblank c hmem hc), hkind] at hnext
    cases hnext
  rw [leads, decide_eq_false hother, Bool.or_false]

/-- The verb is what the first token starts with that is neither blank nor a comment nor an opening
parenthesis. So no text in a comment decides what kind of statement a text is. -/
theorem verb_of_first (h : readAll cs = .ok ts) (hblank : HasPlainBlanks cs)
    (hself : ∀ t ∈ leading ts, ¬ closesItself t) :
    verb? cs = (first? ts).bind letters? ∧
      (isManipulation cs ↔ ∃ t ∈ first? ts, ∃ word ∈ letters? t,
        String.ofList (word.map Char.toUpper) ∈ manipulationVerbs) := by
  have hscan : scan cs = (ts, none) := by
    rw [readAll] at h
    split at h
    · rename_i hscan
      rw [hscan, Except.ok.inj h]
    · cases h
  have hfirst : first? ts = (ts.dropWhile leads).head? := by
    rw [← List.find?_not_eq_head?_dropWhile, first?]
    refine List.find?_congr fun t ht => ?_
    rw [leads_eq hscan hblank ht]
  have hverb : verb? cs = (first? ts).bind letters? := by
    rw [verb?, takeWhile_scan (scan_skipLeading hscan hself), hfirst]
    cases (ts.dropWhile leads).head? <;> rfl
  refine ⟨hverb, ?_⟩
  rw [isManipulation, hverb, Option.any_bind]
  simp [Option.any_eq_true]

/-- Verbs in comments, a parenthesis and a comment that begins as none before the verb may. -/
theorem verb_of_first_commented :
    verb? "--insert\n/**/( uPdate/*/x".toList = some "uPdate".toList ∧
      isManipulation "--insert\n/**/( uPdate/*/x".toList := by
  have hread : readAll "--insert\n/**/( uPdate/*/x".toList = .ok [⟨.comment, "--insert".toList⟩,
      ⟨.blank, ['\n']⟩, ⟨.comment, "/**/".toList⟩, ⟨.punctuation, ['(']⟩, ⟨.blank, [' ']⟩,
      ⟨.word, "uPdate".toList⟩, ⟨.comment, "/*/x".toList⟩] := by decide +kernel
  obtain ⟨hverb, hmanipulation⟩ := verb_of_first hread (by decide +kernel) (by decide +kernel)
  exact ⟨hverb, hmanipulation.mpr ⟨⟨.word, "uPdate".toList⟩, rfl, "uPdate".toList, rfl,
    by decide +kernel⟩⟩

/-- Looking for the verb takes a block comment to end at its first slash, and so finds a verb where
the scanner finds no token but a comment. -/
theorem verb_in_comment : ¬ ∀ cs ts, readAll cs = .ok ts → HasPlainBlanks cs →
    verb? cs = (first? ts).bind letters? := by
  intro hall
  have hverb := hall "/*/SELECT*/".toList [⟨.comment, "/*/SELECT*/".toList⟩] (by decide +kernel)
    (by decide +kernel)
  exact absurd hverb (by decide +kernel)

end Cql.Token
