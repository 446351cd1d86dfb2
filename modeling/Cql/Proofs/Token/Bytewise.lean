import Cql.Proofs.Text.Utf8
import Cql.Proofs.Token.Split
import Cql.Token.Bytewise

/-!
The scanner by bytes finds the tokens of a text. Every byte that it stops at is the first one of a
character or the end of the text, since the characters that end a token, and those that a token goes
on with, have one byte each. So no part of the text is taken out at another place, and no token is
empty.
-/

namespace Cql.Token

open Text.Utf8

variable {c q : Char} {cs : List Char}

/-! The characters that the scanner looks for have one byte. -/

theorem isAlphanum_of_le (c : Char) (h : 128 ≤ c.toNat) : c.isAlphanum = false := by
  simp only [Char.isAlphanum, Char.isAlpha, Char.isUpper, Char.isLower, Char.isDigit,
    UInt32.le_iff_toNat_le, Char.toNat_val, ge_iff_le, Bool.or_eq_false_iff]
  simp
  omega

theorem beq_of_le (hq : q.toNat < 128) (c : Char) (h : 128 ≤ c.toNat) : (c == q) = false := by
  rw [beq_eq_false_iff_ne]
  rintro rfl
  omega

theorem isNameChar_of_le (c : Char) (h : 128 ≤ c.toNat) : isNameChar c = false := by
  simp [isNameChar, isAlphanum_of_le c h, beq_of_le _ c h]

theorem isNameStart_of_le (c : Char) (h : 128 ≤ c.toNat) : isNameStart c = false := by
  by_contra hstart
  have := isNameChar_of_isNameStart (by simpa using hstart)
  rw [isNameChar_of_le c h] at this
  cases this

theorem isNumberChar_of_le (c : Char) (h : 128 ≤ c.toNat) : isNumberChar c = false := by
  simp [isNumberChar, isAlphanum_of_le c h, beq_of_le _ c h]

theorem isAscii_of_le (c : Char) (h : 128 ≤ c.toNat) : Text.Blank.isAscii c = false := by
  simp [Text.Blank.isAscii, beq_of_le _ c h]

theorem cutQuoted_of_ne {xs : List Char} (h : ∀ x ∈ xs, x ≠ q) (cs : List Char) :
    cutQuoted q (xs ++ cs) = (xs ++ (cutQuoted q cs).1, (cutQuoted q cs).2) := by
  induction xs with
  | nil => rfl
  | cons x xs ih =>
    rw [List.cons_append, cutQuoted_cons (h x (by simp)), ih fun y hy => h y (by simp [hy])]
    rfl

theorem cutQuoted_bytesOf (hq : q.toNat < 128) (hc : c ≠ q) (cs : List Char) :
    (cutQuoted q (bytesOf c ++ cs)).1 = bytesOf c ++ (cutQuoted q cs).1 := by
  rw [cutQuoted_of_ne]
  intro b hb
  by_cases hone : c.toNat < 128
  · rw [bytesOf_of_lt hone, List.mem_singleton] at hb
    rwa [hb]
  · rintro rfl
    have := le_of_mem_bytesOf (by omega) hb
    omega

theorem cutQuoted_bytes (hq : q.toNat < 128) (cs : List Char) :
    (cutQuoted q (bytes cs)).1 = bytes (cutQuoted q cs).1 := by
  fun_induction cutQuoted q cs with
  | case1 => rfl
  | case2 c =>
    by_cases hc : c = q
    · rw [hc, bytes_cons_of_lt hq]
      rfl
    · have hcut := cutQuoted_bytesOf hq hc []
      simpa [cutQuoted] using hcut
  | case3 cs ih =>
    rw [bytes_cons_of_lt hq, bytes_cons_of_lt hq, cutQuoted, if_pos rfl, if_pos rfl]
    simp only [Cut.cons, ih, bytes_cons_of_lt hq]
  | case4 d cs hd =>
    have hhead : (bytes (d :: cs)).head? ≠ some q := by
      rw [ne_eq, ← any_beq_iff, any_head?_bytes (beq_of_le hq), any_beq_iff]
      simpa using hd
    rw [bytes_cons_of_lt hq, cutQuoted_closed hhead]
    exact (bytes_cons_of_lt hq []).symm
  | case5 c d cs hc ih =>
    rw [bytes_cons, cutQuoted_bytesOf hq hc, ih]
    rfl

/-- A character that a word may go on with. -/
def isWordOrDot (c : Char) : Bool := isWordChar c || c == '.'

theorem isWordOrDot_of_le (c : Char) (h : 128 ≤ c.toNat) : isWordOrDot c = false := by
  simp [isWordOrDot, isWordChar, isNameChar_of_le c h, beq_of_le _ c h]

theorem cutWord_of_not_isWordOrDot (h : ¬cs.head?.any isWordOrDot) : cutWord cs = ([], cs) := by
  cases cs with
  | nil => rfl
  | cons c cs =>
    have hc : isWordOrDot c = false := by simpa using h
    simp only [isWordOrDot, Bool.or_eq_false_iff, beq_eq_false_iff_ne] at hc
    rw [cutWord, if_neg (by simp [hc])]

theorem cutWord_bytes (cs : List Char) : (cutWord (bytes cs)).1 = bytes (cutWord cs).1 := by
  fun_induction cutWord cs with
  | case1 => rfl
  | case2 c cs hgoes ih =>
    have hword : isWordOrDot c := by
      rcases hgoes with hc | ⟨rfl, -⟩
      · simp [isWordOrDot, hc]
      · rfl
    have hone := lt_of_test isWordOrDot_of_le hword
    rw [← any_head?_bytes isNameStart_of_le] at hgoes
    rw [bytes_cons_of_lt hone, cutWord, if_pos hgoes, Cut.cons, ih]
    exact (bytes_cons_of_lt hone _).symm
  | case3 c cs hends =>
    by_cases hone : c.toNat < 128
    · rw [← any_head?_bytes isNameStart_of_le] at hends
      rw [bytes_cons_of_lt hone, cutWord, if_neg hends]
      rfl
    · have hhead : ¬(bytes (c :: cs)).head?.any isWordOrDot := by
        rw [any_head?_bytes isWordOrDot_of_le]
        simp [isWordOrDot_of_le c (by omega)]
      rw [cutWord_of_not_isWordOrDot hhead]
      rfl

/-- The byte after a character tells the same form as the character after it. -/
theorem form_bytes (c : Char) (cs : List Char) : form c (bytes cs).head? = form c cs.head? := by
  have hsome : ∀ d : Char, d.toNat < 128 → ((bytes cs).head? = some d ↔ cs.head? = some d) := by
    intro d hd
    rw [← any_beq_iff, any_head?_bytes (beq_of_le hd), any_beq_iff]
  have hline : (c = '-' ∨ c = '/') ∧ (bytes cs).head? = some c ↔
      (c = '-' ∨ c = '/') ∧ cs.head? = some c := by
    refine and_congr_right fun hc => hsome c ?_
    rcases hc with rfl | rfl <;> decide
  simp only [form, hline, hsome '*' (by decide), hsome '\x7b' (by decide),
    any_head?_bytes isNameStart_of_le]

/-- A character of many bytes makes a token of its own. -/
theorem form_of_le (h : 128 ≤ c.toNat) (after : Option Char) : form c after = .operator := by
  have hne : ∀ d : Char, d.toNat < 128 → c ≠ d := fun d hd => ne_of_beq_false (beq_of_le hd c h)
  have hdigit : c.isDigit = false := by
    have := isAlphanum_of_le c h
    simp only [Char.isAlphanum, Bool.or_eq_false_iff] at this
    exact this.2
  simp [form, isAscii_of_le c h, isNameStart_of_le c h, hdigit, hne '-' (by decide),
    hne '/' (by decide), hne '\'' (by decide), hne '"' (by decide), hne '?' (by decide),
    hne ':' (by decide), hne '#' (by decide)]

namespace Bytewise

theorem operatorBytes_cons (c : Char) (cs : List Char) :
    operatorBytes (c :: cs) = byteCount (c :: (cutOperator c cs).1) := by
  rw [operatorBytes, cutOperator_eq]
  by_cases hgoes : cs.head?.any (makesOperator c)
  · rw [if_pos hgoes, if_pos hgoes]
    cases cs with
    | nil => cases hgoes
    | cons d cs =>
      have hmem : (c, d) ∈ [('<', '='), ('>', '='), ('!', '='), ('<', '>'), ('|', '|')] :=
        List.contains_iff_mem.mp hgoes
      simp only [List.mem_cons, Prod.mk.injEq, List.not_mem_nil, or_false] at hmem
      rcases hmem with ⟨rfl, rfl⟩ | ⟨rfl, rfl⟩ | ⟨rfl, rfl⟩ | ⟨rfl, rfl⟩ | ⟨rfl, rfl⟩ <;> rfl
  · rw [if_neg hgoes, if_neg hgoes]
    rfl

/-- A fault of a brace group is found at the byte where the group starts. -/
def ending (before : List Char) (c : Char) : Except Fault Cut → Except Stop Nat
  | .ok cut => .ok (byteCount before + byteCount (c :: cut.1))
  | .error fault => .error (.malformed ⟨byteCount before, fault⟩)

theorem from?_second (before cs : List Char) {c d : Char} (hc : c.utf8Size = 1)
    (hd : d.utf8Size = 1) :
    from? (before ++ c :: d :: cs) (byteCount before + 2) = some cs := by
  have hplace : byteCount before + 2 = byteCount (before ++ [c, d]) := by simp [hc, hd]
  rw [hplace, ← from?_append (before ++ [c, d]) cs, List.append_assoc]
  rfl

theorem ending_bind {α : Type} (before : List Char) (c : Char) (cut : Cut)
    (f : Nat → Except Stop α) :
    (ending before c (.ok cut) >>= f) = f (byteCount before + byteCount (c :: cut.1)) := rfl

theorem bracesEnd_eq (before cs : List Char) :
    bracesEnd (before ++ '#' :: '\x7b' :: cs) (byteCount before) =
      ending before '#' ((cutBraces cs).map (Cut.cons '\x7b')) := by
  rw [bracesEnd, from?_second before cs rfl rfl, orMisplaced_bind, cutBraces]
  cases hcut : cutWhile (· ≠ '\x7d') cs with
  | mk inner rest =>
    cases rest with
    | nil => rfl
    | cons d rest =>
      have happ : inner ++ d :: rest = cs := by
        rw [← cutWhile_append (· ≠ '\x7d') cs, hcut]
      have hd : d = '\x7d' := by simpa using not_of_cutWhile hcut
      have hplace : byteCount before + 2 = byteCount (before ++ ['#', '\x7b']) := by simp; rfl
      have hname : between? (before ++ '#' :: '\x7b' :: cs) (byteCount before + 2)
          (byteCount before + 2 + byteCount inner) = some inner := by
        rw [hplace, ← happ, ← between?_append (before ++ ['#', '\x7b']) inner (d :: rest)]
        simp
      simp only [hname, orMisplaced_bind]
      by_cases hempty : (Text.Blank.trim inner).isEmpty
      · simp only [hempty, if_true]
        rfl
      · have hsize : byteCount ('#' :: '\x7b' :: (inner ++ [d])) = 2 + byteCount inner + 1 := by
          subst hd
          show 1 + (1 + byteCount (inner ++ ['\x7d'])) = _
          rw [byteCount_append]
          show 1 + (1 + (byteCount inner + 1)) = _
          omega
        simp only [hempty, Bool.false_eq_true, if_false]
        refine congrArg Except.ok ?_
        rw [Cut.cons, hsize]
        omega

theorem tokenEnd_eq {f : Form} (hopens : f.Opens c cs.head?) (before : List Char) {b : Char}
    {later : List Char} (hbytes : bytes (c :: cs) = b :: later) :
    tokenEnd (before ++ c :: cs) (byteCount before) b later f = ending before c (f.cut c cs) := by
  have hfrom := from?_append before (c :: cs)
  cases f with
  | blank =>
    rw [tokenEnd, ← hbytes, takeWhile_bytes isAscii_of_le, length_bytes,
      List.takeWhile_cons_of_pos hopens]
    rfl
  | line =>
    have hc : decide (c ≠ '\n') := by rcases hopens.1 with rfl | rfl <;> rfl
    have hline := List.takeWhile_cons_of_pos (p := fun d => decide (d ≠ '\n')) (l := cs) hc
    rw [tokenEnd, hfrom, orMisplaced_bind, hline]
    rfl
  | block =>
    obtain ⟨rfl, hafter⟩ := hopens
    obtain ⟨ds, rfl⟩ := List.head?_eq_some_iff.mp hafter
    have hsize : byteCount ('/' :: '*' :: (cutBlock ds).1) = 2 + byteCount (cutBlock ds).1 :=
      (Nat.add_assoc 1 1 _).symm
    rw [tokenEnd, from?_second before ds rfl rfl, orMisplaced_bind, Nat.add_assoc, ← hsize]
    rfl
  | string =>
    obtain rfl : c = '\'' := hopens
    rw [bytes_cons_of_lt (by decide)] at hbytes
    cases hbytes
    rw [tokenEnd, cutQuoted_bytes (by decide), length_bytes, Nat.add_assoc]
    rfl
  | quotedName =>
    obtain rfl : c = '"' := hopens
    rw [bytes_cons_of_lt (by decide)] at hbytes
    cases hbytes
    rw [tokenEnd, cutQuoted_bytes (by decide), length_bytes, Nat.add_assoc]
    rfl
  | mark =>
    obtain rfl : c = '?' := hopens
    rfl
  | colon =>
    obtain ⟨rfl, -⟩ := hopens
    rw [bytes_cons_of_lt (by decide)] at hbytes
    cases hbytes
    rw [tokenEnd, takeWhile_bytes isNameChar_of_le, length_bytes, Nat.add_assoc]
    rfl
  | braces =>
    obtain ⟨rfl, hafter⟩ := hopens
    obtain ⟨ds, rfl⟩ := List.head?_eq_some_iff.mp hafter
    exact bracesEnd_eq before ds
  | word =>
    have hword : isWordChar c ∨ c = '.' ∧ cs.head?.any isNameStart :=
      .inl (isWordChar_of_isNameStart hopens)
    rw [tokenEnd, ← hbytes, cutWord_bytes, length_bytes, cutWord, if_pos hword]
    rfl
  | number =>
    have hc : isNumberChar c := by
      have hdigit : c.isDigit := hopens
      simp [isNumberChar, Char.isAlphanum, hdigit]
    rw [tokenEnd, ← hbytes, takeWhile_bytes isNumberChar_of_le, length_bytes,
      List.takeWhile_cons_of_pos hc]
    rfl
  | operator =>
    rw [tokenEnd, hfrom, orMisplaced_bind, operatorBytes_cons]
    rfl

variable {cs : List Char} {start : Nat} {b : Char} {later : List Char}

theorem scanFrom_of_drop_eq_cons (h : (bytes cs).drop start = b :: later) :
    scanFrom cs start = (do
      let stop ← tokenEnd cs start b later (form b later.head?)
      let chars ← orMisplaced (between? cs start stop)
      if start < stop then
        let others ← scanFrom cs stop
        return ⟨(form b later.head?).kind, chars⟩ :: others
      else .error .stuck) := by
  rw [scanFrom]
  split
  · simp_all
  · rename_i hdrop
    rw [h] at hdrop
    cases hdrop
    rfl

theorem drop_bytes (before cs : List Char) :
    (bytes (before ++ cs)).drop (byteCount before) = bytes cs := by
  rw [bytes_append, ← length_bytes, List.drop_left]

/-- The first byte and the one after it tell the form that the first character and the one after it
tell. -/
theorem form_first (h : bytes (c :: cs) = b :: later) : form b later.head? = form c cs.head? := by
  by_cases hc : c.toNat < 128
  · rw [bytes_cons_of_lt hc] at h
    cases h
    exact form_bytes c cs
  · have hb : 128 ≤ b.toNat := by
      obtain ⟨d, ds, hbytes⟩ := exists_bytesOf_cons c
      rw [bytes_cons, hbytes] at h
      cases h
      exact le_of_mem_bytesOf (c := c) (by omega) (by simp [hbytes])
    rw [form_of_le hb, form_of_le (by omega)]

/-- What the scanner gives for what stands after `before`, which has these tokens up to a fault. -/
def outcome (before : List Char) : List Token × Option Fault → Except Stop (List Token)
  | (ts, none) => .ok ts
  | (ts, some fault) => .error (.malformed ⟨byteCount before + byteCount (flatten ts), fault⟩)

theorem outcome_cons (before : List Char) (t : Token) (later : List Token × Option Fault) :
    (do return t :: (← outcome (before ++ t.chars) later)) =
      outcome before (t :: later.1, later.2) := by
  obtain ⟨ts, fault⟩ := later
  cases fault with
  | none => rfl
  | some fault =>
    have hplace : byteCount (before ++ t.chars) + byteCount (flatten ts) =
        byteCount before + byteCount (flatten (t :: ts)) := by
      rw [flatten_cons, byteCount_append, byteCount_append, Nat.add_assoc]
    rw [outcome, hplace]
    rfl

/-- The scanner is at the first byte of a character, and so it is after the next token. -/
theorem scanFrom_eq (before cs : List Char) :
    scanFrom (before ++ cs) (byteCount before) = outcome before (scan cs) := by
  fun_induction scan cs generalizing before with
  | case1 =>
    rw [scanFrom]
    split
    · rfl
    · rename_i hdrop
      rw [drop_bytes] at hdrop
      cases hdrop
  | case2 c cs fault hnext =>
    obtain ⟨b, later, hbytes⟩ := exists_bytes_cons c cs
    rw [scanFrom_of_drop_eq_cons ((drop_bytes before (c :: cs)).trans hbytes), form_first hbytes,
      tokenEnd_eq (opens_form c cs.head?) before hbytes, next_eq_error_iff.mp hnext]
    rfl
  | case3 c cs kind taken rest hnext others ih =>
    obtain ⟨b, later, hbytes⟩ := exists_bytes_cons c cs
    obtain ⟨rfl, hcut⟩ := next_eq_ok_iff.mp hnext
    have hcs : before ++ c :: cs = before ++ c :: taken ++ rest := by
      rw [List.append_assoc, List.cons_append, next_append hnext]
    have hpart : between? (before ++ c :: cs) (byteCount before)
        (byteCount before + byteCount (c :: taken)) = some (c :: taken) := by
      rw [hcs, between?_append]
    have hgoes : byteCount before < byteCount before + byteCount (c :: taken) := by
      have := c.utf8Size_pos
      rw [byteCount_cons]
      omega
    have hothers := ih (before ++ c :: taken)
    rw [← hcs, byteCount_append] at hothers
    rw [scanFrom_of_drop_eq_cons ((drop_bytes before (c :: cs)).trans hbytes), form_first hbytes,
      tokenEnd_eq (opens_form c cs.head?) before hbytes, hcut, ending_bind, hpart, orMisplaced_bind,
      if_pos hgoes, hothers]
    exact outcome_cons before ⟨_, c :: taken⟩ (scan rest)

theorem byteCount_flatten (ts : List Token) :
    byteCount (flatten ts) = ts.foldr (fun t n => t.size + n) 0 := by
  have hchars : ∀ cs : List Char, byteCount cs = cs.foldr (fun c n => c.utf8Size + n) 0 := by
    intro cs
    induction cs with
    | nil => rfl
    | cons c cs ih => rw [byteCount_cons, ih, List.foldr_cons]
  have hsize : ∀ t : Token, t.size = byteCount t.chars := fun t => (hchars t.chars).symm
  induction ts with
  | nil => rfl
  | cons t ts ih => rw [flatten_cons, byteCount_append, ih, List.foldr_cons, hsize]

theorem readAll_eq (cs : List Char) : readAll cs = (Token.readAll cs).mapError .malformed := by
  have hscan : readAll cs = outcome [] (scan cs) := scanFrom_eq [] cs
  rw [hscan, Token.readAll]
  rcases scan cs with ⟨ts, _ | fault⟩
  · rfl
  · rw [outcome, byteCount_flatten, byteCount_nil, Nat.zero_add]
    rfl

end Bytewise

/-- The scanner by bytes comes to an end on every text, with the tokens of the text or with its
first fault: it never looks at a part of the text that would start or end inside a character or
outside the text, and never stands still. The tokens hold all characters of the text, and each holds
some. -/
theorem readAll_bytewise (cs : List Char) :
    Bytewise.readAll cs = (readAll cs).mapError .malformed ∧
      ∀ ts, Bytewise.readAll cs = .ok ts → flatten ts = cs ∧ ∀ t ∈ ts, t.chars ≠ [] := by
  refine ⟨Bytewise.readAll_eq cs, ?_⟩
  intro ts hts
  rw [Bytewise.readAll_eq] at hts
  cases hread : readAll cs with
  | error m =>
    rw [hread] at hts
    cases hts
  | ok found =>
    rw [hread] at hts
    obtain rfl : found = ts := Except.ok.inj hts
    have hscan := readAll_eq_ok_iff.mp hread
    refine ⟨flatten_scan hscan, fun t ht => ?_⟩
    obtain ⟨c, ds, taken, rest, hchars, -⟩ := exists_next_of_mem_scan hscan ht
    simp [hchars]

/-- Characters of two and of three bytes in every place where one may stand. -/
theorem readAll_bytewise_multibyte :
    (∃ ts, Bytewise.readAll "é≥'ü''ß'--ö\n#\x7b ñ\x7d/*é".toList = .ok ts ∧
        ts.map Token.size = [2, 3, 8, 4, 1, 6, 4] ∧
        flatten ts = "é≥'ü''ß'--ö\n#\x7b ñ\x7d/*é".toList ∧ ∀ t ∈ ts, t.chars ≠ []) ∧
      Bytewise.readAll "'é'≥#\x7b ".toList = .error (.malformed ⟨7, .unclosed⟩) := by
  have hread : Bytewise.readAll "é≥'ü''ß'--ö\n#\x7b ñ\x7d/*é".toList = .ok
      [⟨.punctuation, ['é']⟩, ⟨.punctuation, ['≥']⟩, ⟨.string, "'ü''ß'".toList⟩,
        ⟨.comment, "--ö".toList⟩, ⟨.blank, ['\n']⟩, ⟨.braceNamed, "#\x7b ñ\x7d".toList⟩,
        ⟨.comment, "/*é".toList⟩] := by
    decide +kernel
  exact ⟨⟨_, hread, by decide +kernel, (readAll_bytewise _).2 _ hread⟩,
    (readAll_bytewise _).1.trans (by decide +kernel)⟩

end Cql.Token
