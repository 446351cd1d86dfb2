import Cql.Token.Scan

/-!
The forms of tokens. The form is told by the first character and the one after it, and it says how
the characters after the first one are cut.
-/

namespace Cql.Token

inductive Form
  | blank
  /-- A comment that ends with its line. -/
  | line
  /-- A comment that has an end of its own. -/
  | block
  | string
  | quotedName
  | mark
  | colon
  | braces
  | word
  | number
  /-- An operator or any other character. -/
  | operator
  deriving DecidableEq, Repr

/-- The form of the token that starts with `c`, given the character after it. -/
def form (c : Char) (after : Option Char) : Form :=
  if Text.Blank.isAscii c then .blank
  else if (c = '-' ∨ c = '/') ∧ after = some c then .line
  else if c = '/' ∧ after = some '*' then .block
  else if c = '\'' then .string
  else if c = '"' then .quotedName
  else if c = '?' then .mark
  else if c = ':' ∧ after.any isNameStart then .colon
  else if c = '#' ∧ after = some '\x7b' then .braces
  else if isNameStart c then .word
  else if c.isDigit then .number
  else .operator

namespace Form

def kind : Form → Kind
  | .blank => .blank
  | .line | .block => .comment
  | .string => .string
  | .quotedName => .quotedName
  | .mark => .positional
  | .colon => .colonNamed
  | .braces => .braceNamed
  | .word => .word
  | .number => .number
  | .operator => .punctuation

/-- The characters after the first one, cut where a token of the form ends. -/
def cut (c : Char) (cs : List Char) : Form → Except Fault Cut
  | .blank => .ok (cutWhile Text.Blank.isAscii cs)
  | .line => .ok (cutWhile (· ≠ '\n') cs)
  | .block => .ok ((cutBlock cs.tail).cons '*')
  | .string => .ok (cutQuoted '\'' cs)
  | .quotedName => .ok (cutQuoted '"' cs)
  | .mark => .ok ([], cs)
  | .colon => .ok (cutWhile isNameChar cs)
  | .braces => (cutBraces cs.tail).map (Cut.cons '\x7b')
  | .word => .ok (cutWord cs)
  | .number => .ok (cutWhile isNumberChar cs)
  | .operator => .ok (cutOperator c cs)

/-- What the first two characters of a token of the form are. -/
def Opens (c : Char) (after : Option Char) : Form → Prop
  | .blank => Text.Blank.isAscii c
  | .line => (c = '-' ∨ c = '/') ∧ after = some c
  | .block => c = '/' ∧ after = some '*'
  | .string => c = '\''
  | .quotedName => c = '"'
  | .mark => c = '?'
  | .colon => c = ':' ∧ after.any isNameStart
  | .braces => c = '#' ∧ after = some '\x7b'
  | .word => isNameStart c
  | .number => c.isDigit
  | .operator => True

theorem opens_ite {p : Prop} [Decidable p] {f g : Form} {c : Char} {after : Option Char}
    (hf : p → f.Opens c after) (hg : g.Opens c after) : (if p then f else g).Opens c after := by
  split
  · exact hf ‹_›
  · exact hg

/-- What is told from case to case as the form is. -/
theorem eq_ite {α : Type} {p : Prop} [Decidable p] {f g : Form} {a b : α} (tell : Form → α)
    (hf : p → a = tell f) (hg : b = tell g) : (if p then a else b) = tell (if p then f else g) := by
  split
  · exact hf ‹_›
  · exact hg

end Form

theorem opens_form (c : Char) (after : Option Char) : (form c after).Opens c after := by
  unfold form
  iterate 10 refine Form.opens_ite (fun h => h) ?_
  exact trivial

/-- The two characters make one operator. -/
def makesOperator (c d : Char) : Bool :=
  [('<', '='), ('>', '='), ('!', '='), ('<', '>'), ('|', '|')].contains (c, d)

theorem cutOperator_eq (c : Char) (cs : List Char) :
    cutOperator c cs =
      if cs.head?.any (makesOperator c) then (cs.take 1, cs.drop 1) else ([], cs) := by
  cases cs with
  | nil => rfl
  | cons d cs => rfl

/-- The first token of a text has the form that the first two characters tell. -/
theorem next_eq (c : Char) (cs : List Char) :
    next c cs = ((form c cs.head?).cut c cs).map fun cut => ((form c cs.head?).kind, cut) := by
  have hbraces : (cutBraces cs.tail).map (fun cut => (Kind.braceNamed, cut.cons '\x7b')) =
      ((cutBraces cs.tail).map (Cut.cons '\x7b')).map fun cut => (Kind.braceNamed, cut) := by
    cases cutBraces cs.tail <;> rfl
  let read (f : Form) : Except Fault (Kind × Cut) := (f.cut c cs).map fun cut => (f.kind, cut)
  change next c cs = read (form c cs.head?)
  unfold next form
  refine Form.eq_ite read (fun _ => rfl) (Form.eq_ite read (fun _ => rfl) ?_)
  refine Form.eq_ite read (fun _ => rfl) (Form.eq_ite read (fun hstring => ?_) ?_)
  · rw [hstring]
    rfl
  refine Form.eq_ite read (fun hquoted => ?_) (Form.eq_ite read (fun _ => rfl) ?_)
  · rw [hquoted]
    rfl
  refine Form.eq_ite read (fun _ => rfl) (Form.eq_ite read (fun _ => hbraces) ?_)
  exact Form.eq_ite read (fun _ => rfl) (Form.eq_ite read (fun _ => rfl) rfl)

theorem next_eq_ok_iff {c : Char} {cs : List Char} {kind : Kind} {cut : Cut} :
    next c cs = .ok (kind, cut) ↔
      (form c cs.head?).kind = kind ∧ (form c cs.head?).cut c cs = .ok cut := by
  rw [next_eq]
  cases (form c cs.head?).cut c cs <;> simp [Except.map]

theorem next_eq_error_iff {c : Char} {cs : List Char} {fault : Fault} :
    next c cs = .error fault ↔ (form c cs.head?).cut c cs = .error fault := by
  rw [next_eq]
  cases (form c cs.head?).cut c cs <;> simp [Except.map]

end Cql.Token
