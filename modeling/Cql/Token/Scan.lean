import Cql.Token

/-!
Splitting a text into tokens. Every step takes a first character, and each way to go on is a
function that cuts the characters after it in two; the lemmas `*_append` say that nothing is lost
in a cut. The only faults are a brace group that is not closed and one that holds no name; quoted
text and comments that are not closed run to the end.
-/

namespace Cql.Token

/-- What is wrong with a brace group. -/
inductive Fault
  | unclosed
  | unnamed
  deriving DecidableEq, Repr

/-- A fault and the byte at which its brace group starts. -/
structure Malformed where
  offset : Nat
  fault : Fault
  deriving DecidableEq, Repr

def isNameStart (c : Char) : Bool := c == '_' || c.isAlpha

/-- The characters that continue the name of a colon placeholder. -/
def isNameChar (c : Char) : Bool := c == '_' || c.isAlphanum

def isWordChar (c : Char) : Bool := c == '$' || isNameChar c

def isNumberChar (c : Char) : Bool := c == '.' || c.isAlphanum

abbrev Cut := List Char × List Char

def Cut.cons (c : Char) (cut : Cut) : Cut := (c :: cut.1, cut.2)

def cutWhile (p : Char → Bool) (cs : List Char) : Cut := (cs.takeWhile p, cs.dropWhile p)

/-- Up to and with the first end of a block comment, or everything. -/
def cutBlock : List Char → Cut
  | [] => ([], [])
  | [c] => ([c], [])
  | c :: d :: cs =>
    if c = '*' ∧ d = '/' then ([c, d], cs) else (cutBlock (d :: cs)).cons c

/-- Up to and with the first quote that is not doubled, or everything. -/
def cutQuoted (q : Char) : List Char → Cut
  | [] => ([], [])
  | [c] => ([c], [])
  | c :: d :: cs =>
    if c = q then
      if d = q then ((cutQuoted q cs).cons d).cons c else ([c], d :: cs)
    else (cutQuoted q (d :: cs)).cons c

/-- A dot belongs to a word if a name starts after it. -/
def cutWord : List Char → Cut
  | [] => ([], [])
  | c :: cs =>
    if isWordChar c ∨ c = '.' ∧ cs.head?.any isNameStart then (cutWord cs).cons c else ([], c :: cs)

/-- The characters that make one operator of two characters after `c`. -/
def cutOperator (c : Char) : List Char → Cut
  | [] => ([], [])
  | d :: cs =>
    if [('<', '='), ('>', '='), ('!', '='), ('<', '>'), ('|', '|')].contains (c, d) then ([d], cs)
    else ([], d :: cs)

/-- The inside of a brace group and its closing brace. -/
def cutBraces (cs : List Char) : Except Fault Cut :=
  match cutWhile (· ≠ '\x7d') cs with
  | (_, []) => .error .unclosed
  | (inner, d :: rest) =>
    if (Text.Blank.trim inner).isEmpty then .error .unnamed else .ok (inner ++ [d], rest)

/-- The kind of the token that starts with `c`, and the cut of the characters after `c` into the
token's own and the rest. -/
def next (c : Char) (cs : List Char) : Except Fault (Kind × Cut) :=
  if Text.Blank.isAscii c then .ok (.blank, cutWhile Text.Blank.isAscii cs)
  else if (c = '-' ∨ c = '/') ∧ cs.head? = some c then .ok (.comment, cutWhile (· ≠ '\n') cs)
  else if c = '/' ∧ cs.head? = some '*' then .ok (.comment, (cutBlock cs.tail).cons '*')
  else if c = '\'' then .ok (.string, cutQuoted c cs)
  else if c = '"' then .ok (.quotedName, cutQuoted c cs)
  else if c = '?' then .ok (.positional, ([], cs))
  else if c = ':' ∧ cs.head?.any isNameStart then .ok (.colonNamed, cutWhile isNameChar cs)
  else if c = '#' ∧ cs.head? = some '\x7b' then
    (cutBraces cs.tail).map fun cut => (.braceNamed, cut.cons '\x7b')
  else if isNameStart c then .ok (.word, cutWord cs)
  else if c.isDigit then .ok (.number, cutWhile isNumberChar cs)
  else .ok (.punctuation, cutOperator c cs)

theorem cutWhile_append (p : Char → Bool) (cs : List Char) :
    (cutWhile p cs).1 ++ (cutWhile p cs).2 = cs :=
  List.takeWhile_append_dropWhile

theorem cutBlock_append (cs : List Char) : (cutBlock cs).1 ++ (cutBlock cs).2 = cs := by
  fun_induction cutBlock cs <;> simp_all [Cut.cons]

theorem cutQuoted_append (q : Char) (cs : List Char) :
    (cutQuoted q cs).1 ++ (cutQuoted q cs).2 = cs := by
  fun_induction cutQuoted q cs <;> simp_all [Cut.cons]

theorem cutWord_append (cs : List Char) : (cutWord cs).1 ++ (cutWord cs).2 = cs := by
  fun_induction cutWord cs <;> simp_all [Cut.cons]

theorem cutOperator_append (c : Char) (cs : List Char) :
    (cutOperator c cs).1 ++ (cutOperator c cs).2 = cs := by
  cases cs with
  | nil => rfl
  | cons d cs => simp only [cutOperator]; split <;> rfl

theorem cutBraces_append {cs : List Char} {cut : Cut} (h : cutBraces cs = .ok cut) :
    cut.1 ++ cut.2 = cs := by
  unfold cutBraces at h
  split at h
  · simp at h
  · rename_i inner d rest hcut
    split at h
    · simp at h
    · cases h
      have happ := cutWhile_append (· ≠ '\x7d') cs
      rw [hcut] at happ
      simpa using happ

theorem next_append {c : Char} {cs : List Char} {r : Kind × Cut} (h : next c cs = .ok r) :
    r.2.1 ++ r.2.2 = cs := by
  unfold next at h
  split at h
  · cases h; exact cutWhile_append _ _
  split at h
  · cases h; exact cutWhile_append _ _
  split at h
  · rename_i hc
    cases h
    cases cs with
    | nil => simp at hc
    | cons d ds =>
      have hd : d = '*' := by simpa using hc.2
      simp [Cut.cons, hd, cutBlock_append]
  split at h
  · cases h; exact cutQuoted_append _ _
  split at h
  · cases h; exact cutQuoted_append _ _
  split at h
  · cases h; rfl
  split at h
  · cases h; exact cutWhile_append _ _
  split at h
  · rename_i hc
    cases cs with
    | nil => simp at hc
    | cons d ds =>
      have hd : d = '\x7b' := by simpa using hc.2
      cases hb : cutBraces ds with
      | error f => simp [hb, Except.map] at h
      | ok cut =>
        simp only [List.tail_cons, hb, Except.map, Except.ok.injEq] at h
        subst h
        simp [Cut.cons, hd, cutBraces_append hb]
  split at h
  · cases h; exact cutWord_append _
  split at h
  · cases h; exact cutWhile_append _ _
  · cases h; exact cutOperator_append _ _

theorem length_rest_le {c : Char} {cs : List Char} {r : Kind × Cut} (h : next c cs = .ok r) :
    r.2.2.length ≤ cs.length := by
  have := congrArg List.length (next_append h)
  simp only [List.length_append] at this
  omega

/-- The tokens of a text up to the first fault. -/
def scan : List Char → List Token × Option Fault
  | [] => ([], none)
  | c :: cs =>
    match _h : next c cs with
    | .error fault => ([], some fault)
    | .ok (kind, taken, rest) =>
      let later := scan rest
      (⟨kind, c :: taken⟩ :: later.1, later.2)
termination_by cs => cs.length
decreasing_by exact Nat.lt_succ_of_le (length_rest_le _h)

/-- The tokens of a text. A fault stands where the tokens before it end. -/
def readAll (cs : List Char) : Except Malformed (List Token) :=
  match scan cs with
  | (ts, none) => .ok ts
  | (ts, some fault) => .error ⟨ts.foldr (fun t n => t.size + n) 0, fault⟩

end Cql.Token
