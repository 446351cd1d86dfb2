import Mathlib
import Cql.Proofs.Token.Canonical
import Cql.Token.Verb

/-!
The verb of a text and its tokens. Looking for the verb passes whole tokens, unless a block comment
ends there with the asterisk that opened it; so the verb is that of the canonical text.
-/

namespace Cql.Token

/-- The token may stand before the verb. -/
def leads (t : Token) : Bool :=
  t.isTrivia || t.isOpenParen || t.kind = .punctuation ∧ t.chars.all Text.Blank.isUnicode

/-- A block comment that looking for the verb takes to end at its first slash. -/
def closesItself (t : Token) : Bool := ['/', '*', '/'].isPrefixOf t.chars

variable {c : Char} {cs taken rest : List Char} {kind : Kind} {ts : List Token}

theorem leads_of_isTrivia {t : Token} (h : t.isTrivia) : t.leads := by
  rw [leads, h, Bool.true_or, Bool.true_or]

theorem skipLeading_blank (hc : Text.Blank.isUnicode c) (cs : List Char) :
    skipLeading (c :: cs) = skipLeading cs := by
  have htrim : Text.Blank.trimStart (c :: cs) = Text.Blank.trimStart cs :=
    List.dropWhile_cons_of_pos hc
  rw [skipLeading, skipLeading, htrim]

theorem skipLeading_blanks (htaken : ∀ d ∈ taken, Text.Blank.isUnicode d) (rest : List Char) :
    skipLeading (taken ++ rest) = skipLeading rest := by
  induction taken with
  | nil => rfl
  | cons d taken ih =>
    rw [List.cons_append, skipLeading_blank (htaken d (by simp))]
    exact ih fun e he => htaken e (by simp [he])

theorem skipLeading_line (hc : c = '-' ∨ c = '/') (rest : List Char) :
    skipLeading (c :: c :: rest) = skipLeading (afterLine rest) := by
  obtain rfl | rfl := hc
  · rw [skipLeading]
    rfl
  · rw [skipLeading]
    rfl

theorem skipLeading_block (rest : List Char) :
    skipLeading ('/' :: '*' :: rest) = skipLeading (cutBlock ('*' :: rest)).2 := by
  rw [skipLeading]
  rfl

theorem skipLeading_open (rest : List Char) : skipLeading ('(' :: rest) = skipLeading rest := by
  rw [skipLeading]
  rfl

theorem skipLeading_of_stop (hblank : ¬ Text.Blank.isUnicode c)
    (hline : ¬((c = '-' ∨ c = '/') ∧ cs.head? = some c)) (hblock : ¬(c = '/' ∧ cs.head? = some '*'))
    (hopen : c ≠ '(') : skipLeading (c :: cs) = c :: cs := by
  have htrim : Text.Blank.trimStart (c :: cs) = c :: cs := List.dropWhile_cons_of_neg hblank
  rw [skipLeading, htrim]
  split <;> simp_all

theorem not_isAlphanum_of_isUnicode (hc : Text.Blank.isUnicode c) : ¬ c.isAlphanum := by
  intro h
  simp only [Char.isAlphanum, Char.isAlpha, Char.isUpper, Char.isLower, Char.isDigit,
    Text.Blank.isUnicode, Bool.or_eq_true, Bool.and_eq_true, decide_eq_true_eq, beq_iff_eq,
    UInt32.le_iff_toNat_le, ge_iff_le] at h hc
  have hval : c.val.toNat = c.toNat := rfl
  have hA : 'A'.val.toNat = 65 := rfl
  have hZ : 'Z'.val.toNat = 90 := rfl
  have ha : 'a'.val.toNat = 97 := rfl
  have hz : 'z'.val.toNat = 122 := rfl
  have h0 : '0'.val.toNat = 48 := rfl
  have h9 : '9'.val.toNat = 57 := rfl
  omega

/-- A blank that separates no tokens is a token of its own. -/
theorem next_of_isUnicode (hc : Text.Blank.isUnicode c) (hascii : ¬ Text.Blank.isAscii c)
    (cs : List Char) : next c cs = .ok (.punctuation, [], cs) := by
  have hne : ∀ d, Text.Blank.isUnicode d = false → c ≠ d := by
    rintro _ hd rfl
    rw [hc] at hd
    cases hd
  have hletter : c.isAlpha = false ∧ c.isDigit = false := by
    simpa [Char.isAlphanum] using not_isAlphanum_of_isUnicode hc
  have hname : isNameStart c = false := by
    simp [isNameStart, hletter.1, hne '_' rfl]
  have hoperator : cutOperator c cs = ([], cs) := by
    cases cs with
    | nil => rfl
    | cons d cs => simp [cutOperator, hne '<' rfl, hne '>' rfl, hne '!' rfl, hne '|' rfl]
  simp only [next, hascii, hname, hletter.2, hoperator, hne '-' rfl, hne '/' rfl, hne '\'' rfl,
    hne '"' rfl, hne '?' rfl, hne ':' rfl, hne '#' rfl, false_and, or_self, if_false,
    Bool.false_eq_true]

theorem next_open (cs : List Char) : next '(' cs = .ok (.punctuation, [], cs) := by
  have hoperator : cutOperator '(' cs = ([], cs) := by cases cs <;> simp [cutOperator]
  simp [next, hoperator, Text.Blank.isAscii, isNameStart]

theorem not_isTrivia_of_next (h : next c cs = .ok (kind, taken, rest))
    (hblank : ¬ Text.Blank.isAscii c) (hline : ¬((c = '-' ∨ c = '/') ∧ cs.head? = some c))
    (hblock : ¬(c = '/' ∧ cs.head? = some '*')) : isTrivia ⟨kind, c :: taken⟩ = false := by
  rw [next, if_neg hblank, if_neg hline, if_neg hblock] at h
  cases hbraces : cutBraces cs.tail
  all_goals
    rw [hbraces] at h
    repeat' split at h
    all_goals grind [Except.map, isTrivia]

theorem afterLine_dropWhile (cs : List Char) :
    skipLeading (cs.dropWhile (· ≠ '\n')) = skipLeading (afterLine cs) := by
  rw [afterLine]
  cases hline : cs.dropWhile (· ≠ '\n') with
  | nil => rfl
  | cons c ds =>
    have hc := List.head?_dropWhile_not (· ≠ '\n') cs
    rw [hline] at hc
    obtain rfl : c = '\n' := by simpa using hc
    rw [skipLeading_blank rfl, List.tail_cons]

/-- A block comment ends for the scanner where it ends when the verb is looked for, unless its first
slash ends it. -/
theorem cutBlock_asterisk (h : ¬ closesItself ⟨kind, '/' :: '*' :: (cutBlock cs).1⟩) :
    (cutBlock ('*' :: cs)).2 = (cutBlock cs).2 := by
  cases cs with
  | nil => rfl
  | cons d ds =>
    obtain ⟨taken, rest, hcut⟩ := exists_cutBlock_cons d ds
    have hd : d ≠ '/' := by
      rintro rfl
      simp [closesItself, hcut] at h
    rw [cutBlock, if_neg (by simp [hd])]
    rfl

/-- Looking for the verb passes a token that may stand before it, and stops at any other one. -/
theorem skipLeading_next (h : next c cs = .ok (kind, taken, rest))
    (hself : leads ⟨kind, c :: taken⟩ → ¬ closesItself ⟨kind, c :: taken⟩) :
    skipLeading (c :: cs) =
      if leads ⟨kind, c :: taken⟩ then skipLeading rest else c :: cs := by
  have happ : taken ++ rest = cs := next_append h
  by_cases hascii : Text.Blank.isAscii c
  · rw [next, if_pos hascii] at h
    obtain ⟨rfl, hcut⟩ := Prod.mk.inj (Except.ok.inj h)
    obtain ⟨rfl, rfl⟩ := Prod.mk.inj hcut
    have htaken : ∀ d ∈ cs.takeWhile Text.Blank.isAscii, Text.Blank.isUnicode d :=
      fun d hd => Text.Blank.isUnicode_of_isAscii (List.all_eq_true.mp List.all_takeWhile d hd)
    have hskip := skipLeading_blanks htaken (cs.dropWhile Text.Blank.isAscii)
    rw [happ] at hskip
    rw [if_pos (leads_of_isTrivia rfl), skipLeading_blank (Text.Blank.isUnicode_of_isAscii hascii),
      hskip]
  by_cases hblank : Text.Blank.isUnicode c
  · rw [next_of_isUnicode hblank hascii] at h
    cases h
    rw [if_pos (by simp [leads, hblank])]
    exact skipLeading_blank hblank cs
  by_cases hline : (c = '-' ∨ c = '/') ∧ cs.head? = some c
  · rw [next, if_neg hascii, if_pos hline] at h
    obtain ⟨rfl, hcut⟩ := Prod.mk.inj (Except.ok.inj h)
    obtain ⟨ds, rfl⟩ := List.head?_eq_some_iff.mp hline.2
    have hrest : rest = ds.dropWhile (· ≠ '\n') := by
      have hc : c ≠ '\n' := by
        rcases hline.1 with rfl | rfl <;> decide
      rw [← (Prod.mk.inj hcut).2]
      exact List.dropWhile_cons_of_pos (by simpa using hc)
    rw [if_pos (leads_of_isTrivia rfl), skipLeading_line hline.1, hrest, afterLine_dropWhile]
  by_cases hblock : c = '/' ∧ cs.head? = some '*'
  · rw [next, if_neg hascii, if_neg hline, if_pos hblock] at h
    obtain ⟨rfl, hcut⟩ := Prod.mk.inj (Except.ok.inj h)
    obtain ⟨ds, rfl⟩ := List.head?_eq_some_iff.mp hblock.2
    obtain ⟨rfl, rfl⟩ := Prod.mk.inj hcut
    have hself := hself (leads_of_isTrivia rfl)
    rw [hblock.1, List.tail_cons] at hself
    rw [hblock.1, List.tail_cons]
    rw [if_pos (leads_of_isTrivia rfl), skipLeading_block, cutBlock_asterisk hself]
  by_cases hopen : c = '('
  · rw [hopen, next_open] at h
    cases h
    rw [hopen, skipLeading_open, if_pos (by decide)]
  · have htrivia := not_isTrivia_of_next h hascii hline hblock
    rw [skipLeading_of_stop hblank hline hblock hopen, if_neg]
    simp [leads, htrivia, isOpenParen, hopen, hblank]

/-- The tokens that stand before the verb. -/
def leading (ts : List Token) : List Token := ts.takeWhile leads

/-- The text from its verb on has the tokens that are left when those before the verb are gone. -/
theorem scan_skipLeading (h : scan cs = (ts, none)) (hself : ∀ t ∈ leading ts, ¬ closesItself t) :
    scan (skipLeading cs) = (ts.dropWhile leads, none) := by
  fun_induction scan cs generalizing ts with
  | case1 =>
    cases h
    have hnil : skipLeading [] = [] := by
      rw [skipLeading]
      rfl
    rw [hnil, scan, List.dropWhile_nil]
  | case2 => cases h
  | case3 c cs kind taken rest hnext later =>
    rename_i ih
    obtain ⟨rfl, hlater⟩ := Prod.mk.inj h
    have hscan : scan rest = (later.1, none) := Prod.ext rfl hlater
    by_cases hleads : leads ⟨kind, c :: taken⟩
    · have hrun : leading (⟨kind, c :: taken⟩ :: later.1) = ⟨kind, c :: taken⟩ :: leading later.1 :=
        List.takeWhile_cons_of_pos hleads
      rw [hrun] at hself
      rw [skipLeading_next hnext fun _ => hself _ (by simp), if_pos hleads,
        List.dropWhile_cons_of_pos hleads]
      exact ih hscan fun t ht => hself t (by simp [ht])
    · rw [skipLeading_next hnext fun h => absurd h hleads, if_neg hleads,
        List.dropWhile_cons_of_neg hleads, scan, hnext]
      simp only [hscan]

theorem leads_of_isPlaceholder {t : Token} (h : t.isPlaceholder) : leads t = false := by
  obtain ⟨kind, chars⟩ := t
  cases kind with
  | positional | colonNamed | braceNamed => rfl
  | _ => cases h

theorem leads_canonical (t : Token) : leads t.canonical = leads t := by
  rw [canonical]
  by_cases hplace : t.isPlaceholder
  · rw [if_pos hplace, leads_of_isPlaceholder hplace]
    rfl
  · rw [if_neg hplace]

theorem not_closesItself_canonical {t : Token} (h : ¬ closesItself t) :
    ¬ closesItself t.canonical := by
  rw [canonical]
  by_cases hplace : t.isPlaceholder
  · rw [if_pos hplace]
    decide
  · rw [if_neg hplace]
    exact h

theorem leads_comp_canonical : leads ∘ canonical = leads := funext leads_canonical

/-- The verb of the canonical text is the verb of the text. -/
theorem verb?_canonical (h : scan cs = (ts, none)) (hself : ∀ t ∈ leading ts, ¬ closesItself t) :
    verb? (ts.flatMap Query.canonicalChars) = verb? cs := by
  have hself' : ∀ t ∈ leading (ts.map canonical), ¬ closesItself t := by
    intro t ht
    rw [leading, List.takeWhile_map, leads_comp_canonical] at ht
    obtain ⟨u, hu, rfl⟩ := List.mem_map.mp ht
    exact not_closesItself_canonical (hself u hu)
  have hscan : scan (skipLeading cs) = (ts.dropWhile leads, none) := scan_skipLeading h hself
  have hcanonical := scan_skipLeading (scan_canonical h) hself'
  rw [List.dropWhile_map, leads_comp_canonical] at hcanonical
  have htext : skipLeading (ts.flatMap Query.canonicalChars) =
      (ts.dropWhile leads).flatMap Query.canonicalChars := by
    rw [← flatten_scan hcanonical, flatten, List.flatMap_map]
    simp only [chars_canonical]
  have hletters : ((ts.dropWhile leads).flatMap Query.canonicalChars).takeWhile Char.isAlpha =
      (skipLeading cs).takeWhile Char.isAlpha :=
    (resembles_canonical hscan).takeWhile_eq (alike_of_opensPlaceholder rfl rfl) rfl
  rw [verb?, verb?, htext, hletters]

end Cql.Token
