import Cql.Proofs.Token.Legible
import Cql.Token.Form

/-!
Where tokens end. What stands after a token has a part in it only by what it goes on with: the first
token of a text is the first token of every text that has the same characters up to its end, and
after that goes on with no token that the text did not go on with.
-/

namespace Cql.Token

/-- The characters that placeholders start with. -/
def opensPlaceholder (c : Char) : Bool := c == ':' || c == '#' || c == '?'

/-- The text goes on with a word before it. -/
def ExtendsWord : List Char → Prop
  | [] => False
  | c :: cs => isWordChar c ∨ c = '.' ∧ cs.head?.any isNameStart

/-- A test that tells neither the starts of placeholders apart nor letters. No token ends at one of
them rather than at another. -/
structure IsBlind (p : Char → Bool) : Prop where
  places : ∀ c, opensPlaceholder c → p c = p '?'
  letters : ∀ c : Char, c.isAlpha → p c = p 'a'

/-- What ends before the first text ends before the second one too. -/
structure Stops (rest rest' : List Char) : Prop where
  head : ∀ p : Char → Bool, IsBlind p → rest'.head?.any p → rest.head?.any p
  word : ExtendsWord rest' → ExtendsWord rest

variable {c : Char} {cs taken rest rest' : List Char} {kind : Kind} {p : Char → Bool} {form : Form}

/-- A test that does not tell the three starts of placeholders apart. -/
theorem alike_of_opensPlaceholder (hcolon : p ':' = p '?') (hsign : p '#' = p '?') :
    ∀ c, opensPlaceholder c → p c = p '?' := by
  intro c hc
  simp only [opensPlaceholder, Bool.or_eq_true, beq_iff_eq] at hc
  rcases hc with (rfl | rfl) | rfl
  · exact hcolon
  · exact hsign
  · rfl

theorem ne_of_opensPlaceholder {d : Char} (hc : opensPlaceholder c)
    (hd : opensPlaceholder d = false) : c ≠ d := by
  rintro rfl
  simp [hd] at hc

namespace IsBlind

/-- A test that all letters pass. -/
theorem of_letters (hcolon : p ':' = p '?') (hsign : p '#' = p '?')
    (h : ∀ c : Char, c.isAlpha → p c) : IsBlind p :=
  ⟨alike_of_opensPlaceholder hcolon hsign, fun c hc => (h c hc).trans (h 'a' rfl).symm⟩

/-- A test that no letter passes. -/
theorem of_others (hcolon : p ':' = p '?') (hsign : p '#' = p '?')
    (h : ∀ c, p c → c.isAlpha = false) : IsBlind p := by
  have hletters : ∀ c : Char, c.isAlpha → p c = false := by
    intro c hc
    cases hp : p c with
    | false => rfl
    | true =>
      rw [h c hp] at hc
      cases hc
  exact ⟨alike_of_opensPlaceholder hcolon hsign,
    fun c hc => (hletters c hc).trans (hletters 'a' rfl).symm⟩

theorem beq {d : Char} (hd : opensPlaceholder d = false) (hletter : d.isAlpha = false) :
    IsBlind (· == d) := by
  have hne : ∀ c, opensPlaceholder c → (c == d) = false :=
    fun c hc => beq_false_of_ne (ne_of_opensPlaceholder hc hd)
  refine of_others ?_ ?_ fun c hc => ?_
  · rw [hne ':' rfl, hne '?' rfl]
  · rw [hne '#' rfl, hne '?' rfl]
  · rwa [eq_of_beq hc]

theorem isAscii : IsBlind Text.Blank.isAscii := by
  refine of_others rfl rfl fun c hc => ?_
  simp only [Text.Blank.isAscii, Bool.or_eq_true, beq_iff_eq] at hc
  rcases hc with (((rfl | rfl) | rfl) | rfl) | rfl <;> rfl

theorem isNameStart : IsBlind Token.isNameStart :=
  of_letters rfl rfl fun c hc => by simp [Token.isNameStart, hc]

theorem isNameChar : IsBlind Token.isNameChar :=
  of_letters rfl rfl fun c hc => by simp [Token.isNameChar, Char.isAlphanum, hc]

theorem isNumberChar : IsBlind Token.isNumberChar :=
  of_letters rfl rfl fun c hc => by simp [Token.isNumberChar, Char.isAlphanum, hc]

theorem makesOperator (c : Char) : IsBlind (Token.makesOperator c) := by
  refine of_others ?_ ?_ fun d hd => ?_
  · simp [Token.makesOperator]
  · simp [Token.makesOperator]
  · simp only [Token.makesOperator, List.contains_eq_mem, List.mem_cons, Prod.mk.injEq,
      List.not_mem_nil, or_false, decide_eq_true_eq] at hd
    rcases hd with ⟨-, rfl⟩ | ⟨-, rfl⟩ | ⟨-, rfl⟩ | ⟨-, rfl⟩ | ⟨-, rfl⟩ <;> rfl

end IsBlind

theorem any_beq_iff {d : Char} {x : Option Char} : x.any (· == d) ↔ x = some d := by
  cases x <;> simp

namespace Stops

/-- A text may be cut off anywhere. -/
theorem of_isPrefix (h : rest' <+: rest) : Stops rest rest' := by
  obtain ⟨later, rfl⟩ := h
  cases rest' with
  | nil =>
    constructor
    · intro p _ hp
      cases hp
    · exact False.elim
  | cons c cs =>
    constructor
    · exact fun p _ hp => hp
    · rintro (hc | ⟨hc, hnext⟩)
      · exact .inl hc
      · refine .inr ⟨hc, ?_⟩
        cases cs with
        | nil => cases hnext
        | cons d ds => exact hnext

theorem append_left (taken : List Char) (h : Stops rest rest') :
    Stops (taken ++ rest) (taken ++ rest') := by
  cases taken with
  | nil => exact h
  | cons c taken =>
    refine ⟨fun p _ hgoes => hgoes, Or.imp_right fun ⟨hdot, hname⟩ => ⟨hdot, ?_⟩⟩
    cases taken with
    | nil => exact h.head isNameStart .isNameStart hname
    | cons d taken => exact hname

/-- What ends before one name ends before another one. -/
theorem of_letters {c d : Char} (hc : c.isAlpha) (hd : d.isAlpha) (cs ds : List Char) :
    Stops (c :: cs) (d :: ds) where
  head p hp hgoes := by
    rw [List.head?_cons, Option.any_some] at hgoes ⊢
    rwa [hp.letters c hc, ← hp.letters d hd]
  word _ := .inl (by simp [isWordChar, isNameChar, Char.isAlphanum, hc])

theorem eq_nil (h : Stops [] rest') : rest' = [] := by
  cases rest' with
  | nil => rfl
  | cons c cs => exact absurd (h.head (fun _ => true) ⟨fun _ _ => rfl, fun _ _ => rfl⟩ rfl) (by simp)

theorem head?_ne {d : Char} (hd : IsBlind (· == d)) (h : Stops rest rest')
    (hne : rest.head? ≠ some d) : rest'.head? ≠ some d := by
  intro heq
  exact hne (any_beq_iff.mp (h.head (· == d) hd (any_beq_iff.mpr heq)))

end Stops

/-- The character where a cut ends fails the test. -/
theorem not_of_cutWhile {d : Char} (h : cutWhile p cs = (taken, d :: rest)) : p d = false := by
  have hstop := List.head?_dropWhile_not p cs
  rw [(Prod.mk.inj h).2] at hstop
  simpa using hstop

theorem cutWhile_stops (hp : IsBlind p) (h : cutWhile p cs = (taken, rest)) (hstops : Stops rest rest') :
    cutWhile p (taken ++ rest') = (taken, rest') := by
  obtain ⟨rfl, rfl⟩ := Prod.mk.inj h
  apply cutWhile_append_of_all
  · exact fun d hd => List.all_eq_true.mp List.all_takeWhile d hd
  · intro hgoes
    have hold := hstops.head p hp hgoes
    have hstop := List.head?_dropWhile_not p cs
    cases hhead : (cs.dropWhile p).head? with
    | none => simp [hhead] at hold
    | some d => simp_all

/-- A cut that takes anything takes the next character first. -/
theorem exists_cutBlock_cons (c : Char) (cs : List Char) :
    ∃ taken rest, cutBlock (c :: cs) = (c :: taken, rest) := by
  cases cs with
  | nil => exact ⟨[], [], rfl⟩
  | cons d cs =>
    rw [cutBlock]
    split
    · exact ⟨[d], cs, rfl⟩
    · exact ⟨_, _, rfl⟩

theorem cutBlock_stops (h : cutBlock cs = (taken, rest)) (hstops : Stops rest rest') :
    cutBlock (taken ++ rest') = (taken, rest') := by
  fun_induction cutBlock cs generalizing taken with
  | case1 | case2 =>
    cases h
    rw [hstops.eq_nil]
    rfl
  | case3 c d cs hend =>
    cases h
    simp [cutBlock, hend]
  | case4 c d cs hend ih =>
    obtain ⟨others, rest₁, hcut⟩ := exists_cutBlock_cons d cs
    rw [hcut] at h ih
    cases h
    have hlater : cutBlock (d :: (others ++ rest')) = (d :: others, rest') := ih rfl
    show cutBlock (c :: d :: (others ++ rest')) = (c :: d :: others, rest')
    rw [cutBlock, if_neg hend, hlater]
    rfl

/-- A quote that is not doubled ends the text in quotes. -/
theorem cutQuoted_closed {q : Char} (h : cs.head? ≠ some q) :
    cutQuoted q (q :: cs) = ([q], cs) := by
  cases cs with
  | nil => rfl
  | cons c cs =>
    have hc : c ≠ q := by simpa using h
    rw [cutQuoted, if_pos rfl, if_neg hc]

theorem cutQuoted_stops {q : Char} (hq : IsBlind (· == q))
    (h : cutQuoted q cs = (taken, rest)) (hstops : Stops rest rest') :
    cutQuoted q (taken ++ rest') = (taken, rest') := by
  fun_induction cutQuoted q cs generalizing taken with
  | case1 | case2 =>
    cases h
    rw [hstops.eq_nil]
    rfl
  | case3 cs ih =>
    cases h
    have hlater : cutQuoted q ((cutQuoted q cs).1 ++ rest') = ((cutQuoted q cs).1, rest') := ih rfl
    simp [cutQuoted, Cut.cons, hlater]
  | case4 d cs hd =>
    cases h
    exact cutQuoted_closed (hstops.head?_ne hq (by simpa using hd))
  | case5 c d cs hc ih =>
    cases h
    have hlater := ih rfl
    rw [List.cons_append]
    rw [cutQuoted_cons hc, hlater]
    rfl

theorem isWordChar_of_isNameStart (h : isNameStart c) : isWordChar c := by
  rw [isWordChar, isNameChar_of_isNameStart h, Bool.or_true]

/-- The name after a dot is in the word that the dot belongs to. -/
theorem head?_cutWord (h : cs.head?.any isNameStart) : (cutWord cs).1.head? = cs.head? := by
  cases cs with
  | nil => rfl
  | cons c cs => rw [cutWord, if_pos (.inl (isWordChar_of_isNameStart h))]; rfl

theorem cutWord_stops (h : cutWord cs = (taken, rest)) (hstops : Stops rest rest') :
    cutWord (taken ++ rest') = (taken, rest') := by
  fun_induction cutWord cs generalizing taken with
  | case1 =>
    cases h
    rw [hstops.eq_nil]
    rfl
  | case2 c cs hgoes ih =>
    cases h
    have hlater := ih rfl
    have hgoes' : isWordChar c ∨ c = '.' ∧ ((cutWord cs).1 ++ rest').head?.any isNameStart := by
      refine hgoes.imp_right fun hdot => ⟨hdot.1, ?_⟩
      have hname := hdot.2
      have hhead := head?_cutWord hname
      rw [List.head?_append, hhead]
      cases hcs : cs.head? with
      | none => simp [hcs] at hname
      | some d => simpa [hcs] using hname
    rw [List.cons_append]
    rw [cutWord, if_pos hgoes', hlater]
    rfl
  | case3 c cs hends =>
    cases h
    cases rest' with
    | nil => rfl
    | cons d ds =>
      have hd : ¬(isWordChar d ∨ d = '.' ∧ ds.head?.any isNameStart) :=
        fun hd => hends (hstops.word hd)
      rw [List.nil_append]
      rw [cutWord, if_neg hd]

theorem cutOperator_stops (h : cutOperator c cs = (taken, rest)) (hstops : Stops rest rest') :
    cutOperator c (taken ++ rest') = (taken, rest') := by
  rw [cutOperator_eq] at h ⊢
  by_cases hgoes : cs.head?.any (makesOperator c)
  · rw [if_pos hgoes] at h
    cases h
    cases cs with
    | nil => cases hgoes
    | cons d ds => exact if_pos hgoes
  · rw [if_neg hgoes] at h
    cases h
    exact if_neg (mt (hstops.head _ (.makesOperator c)) hgoes)

theorem cutBraces_stops (h : cutBraces cs = .ok (taken, rest)) (rest' : List Char) :
    cutBraces (taken ++ rest') = .ok (taken, rest') := by
  unfold cutBraces at h
  split at h
  · cases h
  · rename_i inner d later hcut
    split at h
    · cases h
    · rename_i hnamed
      cases h
      have hd : d = '\x7d' := by simpa using not_of_cutWhile hcut
      have hinner : ∀ e ∈ inner, decide (e ≠ '\x7d') := by
        rw [← (Prod.mk.inj hcut).1]
        exact fun e he => List.all_eq_true.mp List.all_takeWhile e he
      have hsame : cutWhile (· ≠ '\x7d') (inner ++ d :: rest') = (inner, d :: rest') :=
        cutWhile_append_of_all hinner (by simp [hd])
      rw [List.append_assoc, List.singleton_append, cutBraces, hsame]
      simp only [hnamed]
      rfl

/-- The form is told by two characters. -/
def Form.looksAhead : Form → Bool
  | .line | .block | .colon | .braces => true
  | .blank | .string | .quotedName | .mark | .word | .number | .operator => false

theorem Form.cut_stops (h : form.cut c cs = .ok (taken, rest)) (hstops : Stops rest rest') :
    form.cut c (taken ++ rest') = .ok (taken, rest') := by
  cases form with
  | blank => exact congrArg _ (cutWhile_stops .isAscii (Except.ok.inj h) hstops)
  | line =>
    have hend : IsBlind (· ≠ '\n') := .of_letters rfl rfl fun c hc => by
      simp only [ne_eq, decide_not, Bool.not_eq_true', decide_eq_false_iff_not]
      rintro rfl
      cases hc
    exact congrArg _ (cutWhile_stops hend (Except.ok.inj h) hstops)
  | block =>
    cases h
    have hlater := cutBlock_stops rfl hstops
    simp only [Form.cut, Cut.cons, List.cons_append, List.tail_cons, hlater]
  | string => exact congrArg _ (cutQuoted_stops (.beq rfl rfl) (Except.ok.inj h) hstops)
  | quotedName => exact congrArg _ (cutQuoted_stops (.beq rfl rfl) (Except.ok.inj h) hstops)
  | mark =>
    cases h
    rfl
  | colon => exact congrArg _ (cutWhile_stops .isNameChar (Except.ok.inj h) hstops)
  | braces =>
    rw [Form.cut] at h
    cases hcut : cutBraces cs.tail with
    | error f => simp [hcut, Except.map] at h
    | ok cut =>
      rw [hcut] at h
      cases h
      have hlater := cutBraces_stops hcut rest'
      simp only [Form.cut, Cut.cons, List.cons_append, List.tail_cons, hlater, Except.map]
  | word => exact congrArg _ (cutWord_stops (Except.ok.inj h) hstops)
  | number => exact congrArg _ (cutWhile_stops .isNumberChar (Except.ok.inj h) hstops)
  | operator => exact congrArg _ (cutOperator_stops (Except.ok.inj h) hstops)

/-- A token that is told by two characters has both of them. -/
theorem Form.ne_nil_of_looksAhead (h : form.cut c cs = .ok (taken, rest))
    (hopens : form.Opens c cs.head?) (hlooks : form.looksAhead) : taken ≠ [] := by
  rintro rfl
  cases form with
  | line =>
    obtain ⟨hc, hafter⟩ := hopens
    obtain ⟨ds, rfl⟩ := List.head?_eq_some_iff.mp hafter
    have hend : c ≠ '\n' := by rcases hc with rfl | rfl <;> simp
    simp [Form.cut, cutWhile, hend] at h
  | block => cases h
  | colon =>
    cases cs with
    | nil => cases hopens.2
    | cons d ds =>
      have hname : isNameChar d := isNameChar_of_isNameStart hopens.2
      simp [Form.cut, cutWhile, hname] at h
  | braces =>
    rw [Form.cut] at h
    cases hcut : cutBraces cs.tail with
    | error f => simp [hcut, Except.map] at h
    | ok cut =>
      rw [hcut] at h
      cases h
  | _ => cases hlooks

/-- What goes on with the second text goes on with the first one too. -/
theorem Form.opens_mono {x x' : Option Char} (hlooks : form.looksAhead)
    (hx : ∀ p : Char → Bool, IsBlind p → x'.any p → x.any p)
    (h : form.Opens c x') : form.Opens c x := by
  have hsome : ∀ d, IsBlind (· == d) → x' = some d → x = some d :=
    fun d hd hd' => any_beq_iff.mp (hx (· == d) hd (any_beq_iff.mpr hd'))
  cases form with
  | line =>
    refine ⟨h.1, hsome c ?_ h.2⟩
    rcases h.1 with rfl | rfl <;> exact .beq rfl rfl
  | block => exact ⟨h.1, hsome _ (.beq rfl rfl) h.2⟩
  | colon => exact ⟨h.1, hx _ .isNameStart h.2⟩
  | braces => exact ⟨h.1, hsome _ (.beq rfl rfl) h.2⟩
  | _ => cases hlooks

/-- No character tells a form alone where two characters tell one. -/
theorem looksAhead_form {after : Option Char} (hblank : ¬Text.Blank.isAscii c)
    (hlooks : form.looksAhead) (h : form.Opens c after) :
    (Token.form c after).looksAhead := by
  cases form with
  | line =>
    simp only [Form.Opens] at h
    simp [Token.form, hblank, h, Form.looksAhead]
  | block =>
    obtain ⟨rfl, rfl⟩ := h
    simp [Token.form, hblank, Form.looksAhead]
  | colon =>
    obtain ⟨rfl, h⟩ := h
    simp [Token.form, hblank, h, Form.looksAhead]
  | braces =>
    obtain ⟨rfl, rfl⟩ := h
    simp [Token.form, hblank, Form.looksAhead]
  | _ => cases hlooks

/-- The form of a token that one character tells is that of every token that starts with it and does
not go on with what tells another form. -/
theorem form_eq_of_not_looksAhead {x x' : Option Char} (h : ¬(Token.form c x).looksAhead)
    (hx : ∀ p : Char → Bool, IsBlind p → x'.any p → x.any p) :
    Token.form c x' = Token.form c x := by
  by_cases hblank : Text.Blank.isAscii c
  · rw [Token.form, Token.form, if_pos hblank, if_pos hblank]
  have hnot : ∀ form : Form, form.looksAhead → ¬form.Opens c x :=
    fun form hlooks => mt (looksAhead_form hblank hlooks) h
  have hnot' : ∀ form : Form, form.looksAhead → ¬form.Opens c x' :=
    fun form hlooks => mt (Form.opens_mono hlooks hx) (hnot form hlooks)
  have hline := hnot .line rfl
  have hblock := hnot .block rfl
  have hcolon := hnot .colon rfl
  have hbraces := hnot .braces rfl
  have hline' := hnot' .line rfl
  have hblock' := hnot' .block rfl
  have hcolon' := hnot' .colon rfl
  have hbraces' := hnot' .braces rfl
  simp only [Form.Opens] at hline hblock hcolon hbraces hline' hblock' hcolon' hbraces'
  simp only [Token.form, hline, hblock, hcolon, hbraces, hline', hblock', hcolon', hbraces']

/-- The first token of a text is the first token of every text that has it at its start and goes on
with nothing that the first text did not go on with. -/
theorem next_stops (h : next c cs = .ok (kind, taken, rest)) (hstops : Stops rest rest') :
    next c (taken ++ rest') = .ok (kind, taken, rest') := by
  have happ : taken ++ rest = cs := next_append h
  obtain ⟨hkind, hcut⟩ := next_eq_ok_iff.mp h
  have hform : Token.form c (taken ++ rest').head? = Token.form c cs.head? := by
    cases taken with
    | cons d ds => rw [← happ, List.cons_append, List.cons_append, List.head?_cons, List.head?_cons]
    | nil =>
      apply form_eq_of_not_looksAhead
      · exact fun hlooks => Form.ne_nil_of_looksAhead hcut (opens_form c cs.head?) hlooks rfl
      · rw [← happ]
        exact hstops.head
  rw [← hform] at hkind hcut
  exact next_eq_ok_iff.mpr ⟨hkind, Form.cut_stops hcut hstops⟩

end Cql.Token
