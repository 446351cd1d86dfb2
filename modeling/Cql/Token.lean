import Cql.Text.Blank

/-!
Tokens of a statement text. A token keeps its characters, so the tokens of a text hold the whole
text.
-/

namespace Cql

inductive Token.Kind
  | blank
  | comment
  /-- An identifier or a keyword, maybe dotted. -/
  | word
  | number
  /-- Text in single quotes. -/
  | string
  /-- An identifier in double quotes. -/
  | quotedName
  /-- A question mark. -/
  | positional
  /-- A name after a colon. -/
  | colonNamed
  /-- A name in braces after a number sign. -/
  | braceNamed
  | punctuation
  deriving DecidableEq, Repr

structure Token where
  kind : Token.Kind
  chars : List Char
  deriving DecidableEq, Repr

namespace Token

def text (t : Token) : String := String.ofList t.chars

/-- Bytes in UTF-8. -/
def size (t : Token) : Nat := t.chars.foldr (fun c n => c.utf8Size + n) 0

def isTrivia (t : Token) : Bool := t.kind = .blank ∨ t.kind = .comment

def isPlaceholder (t : Token) : Bool :=
  t.kind = .positional ∨ t.kind = .colonNamed ∨ t.kind = .braceNamed

/-- The name that a named placeholder carries. -/
def name? (t : Token) : Option (List Char) :=
  match t.kind with
  | .colonNamed => some t.chars.tail
  | .braceNamed => some (Text.Blank.trim (t.chars.drop 2).dropLast)
  | _ => none

def isOpenParen (t : Token) : Bool := t.kind = .punctuation ∧ t.chars = ['(']

/-- A word names a function if the next token that is not blank opens a parenthesis. -/
def isFunctionName (t : Token) (following : List Token) : Bool :=
  t.kind = .word ∧ (following.find? (·.kind ≠ .blank)).any isOpenParen

/-- The characters of a list of tokens, in order. -/
def flatten (ts : List Token) : List Char := ts.flatMap chars

@[simp]
theorem flatten_nil : flatten [] = [] := rfl

@[simp]
theorem flatten_cons (t : Token) (ts : List Token) : flatten (t :: ts) = t.chars ++ flatten ts :=
  rfl

theorem flatten_append (us vs : List Token) : flatten (us ++ vs) = flatten us ++ flatten vs :=
  List.flatMap_append

end Token

end Cql
