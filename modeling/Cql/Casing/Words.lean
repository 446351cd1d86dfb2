import Cql.Text.Split

/-!
The words of an identifier. Separators are all characters but ASCII letters and digits. Inside a
part a word ends before a capital that follows a small letter (digits between them do not count),
and before the last of several capitals if a small letter follows it.
-/

namespace Cql.Casing.Words

open Text.Split

/-- What the letters of the current word looked like last. -/
inductive Mode
  | start
  | small
  | capital
  deriving DecidableEq, Repr

def Mode.after (mode : Mode) (c : Char) : Mode :=
  if c.isLower then .small else if c.isUpper then .capital else mode

/-- The words of a part without separators. An empty first word says that the word in progress
ends before the part. -/
def cut (mode : Mode) : List Char → List (List Char)
  | [] => []
  | [c] => [[c]]
  | c :: d :: cs =>
    if mode.after c = .small ∧ d.isUpper then [c] :: cut .start (d :: cs)
    else if mode = .capital ∧ c.isUpper ∧ d.isLower then [] :: grow c (cut .start (d :: cs))
    else grow c (cut (mode.after c) (d :: cs))

def ofIdentifier (cs : List Char) : List (List Char) :=
  (splitWhere (!·.isAlphanum) cs).flatMap (cut .start)

def lower (word : List Char) : List Char := word.map Char.toLower

def upper (word : List Char) : List Char := word.map Char.toUpper

def capitalize : List Char → List Char
  | [] => []
  | c :: cs => c.toUpper :: lower cs

def lowerSnake (words : List (List Char)) : List Char := join '_' (words.map lower)

def upperSnake (words : List (List Char)) : List Char := join '_' (words.map upper)

def lowerCamel : List (List Char) → List Char
  | [] => []
  | word :: words => lower word ++ words.flatMap capitalize

end Cql.Casing.Words
