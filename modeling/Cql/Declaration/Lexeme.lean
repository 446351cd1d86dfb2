import Cql.Text.Blank

/-!
Lexemes of a type as it is written in a declaration. Blanks and comments are cut off like other
lexemes and then left out. Every function here counts the characters of a lexeme that follow the
ones it is given.
-/

namespace Cql.Declaration

inductive Lexeme.Kind
  /-- A blank or a comment. -/
  | gap
  /-- A name or a keyword. -/
  | word
  /-- A name after an apostrophe. -/
  | lifetime
  /-- A number, a character or a text, which may have letters in front. -/
  | literal
  /-- Punctuation. Some pairs are one mark, such as an arrow. -/
  | mark
  deriving DecidableEq, Repr

structure Lexeme where
  kind : Lexeme.Kind
  chars : List Char
  deriving DecidableEq, Repr

namespace Lexeme

/-- Blanks of Unicode, and the marks for the direction of writing. -/
def isBlank (c : Char) : Bool := Text.Blank.isUnicode c || c == '\u200e' || c == '\u200f'

def isNameStart (c : Char) : Bool := c == '_' || c.isAlpha || (127 < c.toNat && !isBlank c)

def isNameChar (c : Char) : Bool := c.isDigit || isNameStart c

def countWhile (p : Char → Bool) (cs : List Char) : Nat := (cs.takeWhile p).length

/-- Up to and with the end of a comment with as many inner comments that are still open. -/
def commentSize (depth : Nat) : List Char → Nat
  | [] => 0
  | [_] => 1
  | c :: d :: cs =>
    if c = '/' ∧ d = '*' then commentSize (depth + 1) cs + 2
    else if c = '*' ∧ d = '/' then
      match depth with
      | 0 => 2
      | depth + 1 => commentSize depth cs + 2
    else commentSize depth (d :: cs) + 1

/-- Up to and with the quote that ends a text. A backslash goes with the character after it. -/
def quotedSize (quote : Char) : List Char → Nat
  | [] => 0
  | [_] => 1
  | c :: d :: cs =>
    if c = '\\' then quotedSize quote cs + 2
    else if c = quote then 1
    else quotedSize quote (d :: cs) + 1

/-- Letters, digits and points with a digit after them. -/
def numberSize : List Char → Nat
  | [] => 0
  | c :: cs =>
    if isNameChar c ∨ c = '.' ∧ cs.head?.any Char.isDigit then numberSize cs + 1 else 0

/-- Up to and with the quote and the number signs that end a raw text. -/
def rawSize (signs : Nat) : List Char → Nat
  | [] => 0
  | c :: cs =>
    if c = '"' ∧ cs.take signs = List.replicate signs '#' then signs + 1
    else rawSize signs cs + 1

/-- After an apostrophe: a character, or a lifetime. -/
def apostrophe : List Char → Kind × Nat
  | '\\' :: cs => (.literal, quotedSize '\'' ('\\' :: cs))
  | _ :: '\'' :: _ => (.literal, 2)
  | cs => (.lifetime, countWhile isNameChar cs)

/-- After a word of some size: the word itself, or a literal that has it in front, or a word that
is marked as no keyword. -/
def afterWord (word : List Char) (size : Nat) (cs : List Char) : Kind × Nat :=
  let signs := countWhile (· = '#') cs
  if word ∈ [['b'], ['c']] ∧ cs.head? = some '"' then
    (.literal, size + 1 + quotedSize '"' cs.tail)
  else if word = ['b'] ∧ cs.head? = some '\'' then
    (.literal, size + 1 + quotedSize '\'' cs.tail)
  else if word ∈ [['r'], ['b', 'r'], ['c', 'r']] ∧ (cs.drop signs).head? = some '"' then
    (.literal, size + signs + 1 + rawSize signs (cs.drop (signs + 1)))
  else if word = ['r'] ∧ signs = 1 then
    (.word, size + 1 + countWhile isNameChar cs.tail)
  else (.word, size)

/-- Pairs of characters that are one mark. -/
def pairs : List (Char × Char) := [('-', '>'), (':', ':'), ('<', '<'), ('|', '|')]

/-- The kind of the lexeme that starts with `c`, and how many of the characters after `c` belong
to it. -/
def next (c : Char) (cs : List Char) : Kind × Nat :=
  if isBlank c then (.gap, 0)
  else if c = '/' ∧ cs.head? = some '/' then (.gap, countWhile (· ≠ '\n') cs)
  else if c = '/' ∧ cs.head? = some '*' then (.gap, commentSize 0 cs.tail + 1)
  else if c = '"' then (.literal, quotedSize c cs)
  else if c = '\'' then apostrophe cs
  else if c.isDigit then (.literal, numberSize cs)
  else if isNameStart c then
    let size := countWhile isNameChar cs
    afterWord (c :: cs.take size) size (cs.drop size)
  else if cs.head?.any fun d => (c, d) ∈ pairs then (.mark, 1)
  else (.mark, 0)

def cut : List Char → List Lexeme
  | [] => []
  | c :: cs =>
    let (kind, size) := next c cs
    ⟨kind, c :: cs.take size⟩ :: cut (cs.drop size)
termination_by cs => cs.length
decreasing_by simp only [List.length_drop, List.length_cons]; omega

/-- The lexemes of a text without blanks and comments. -/
def ofText (text : String) : List Lexeme := (cut text.toList).filter (·.kind ≠ .gap)

end Lexeme

end Cql.Declaration
