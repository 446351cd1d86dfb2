import Cql.Text.Utf8
import Cql.Token.Form

/-!
Splitting a text into tokens by its bytes. The scanner stands at a byte. It tells the form of a
token and where most forms end from single bytes, looks for the ends of comments and brace groups in
the text, and takes the characters of a token out of the text by the bytes where the token starts
and ends.
-/

namespace Cql.Token.Bytewise

open Text.Utf8

/-- Why the scanner stops before the end of a text. -/
inductive Stop
  /-- A part of the text was to start or to end inside a character or outside the text. -/
  | misplaced
  /-- A token had no characters, so the scanner did not get on. -/
  | stuck
  | malformed (m : Malformed)
  deriving DecidableEq, Repr

def orMisplaced : Option (List Char) → Except Stop (List Char)
  | some part => .ok part
  | none => .error .misplaced

theorem orMisplaced_bind {α : Type} (part : List Char) (f : List Char → Except Stop α) :
    (orMisplaced (some part) >>= f) = f part := rfl

/-- The byte after the brace group that starts at byte `start`. -/
def bracesEnd (cs : List Char) (start : Nat) : Except Stop Nat := do
  let rest ← orMisplaced (from? cs (start + 2))
  match cutWhile (· ≠ '\x7d') rest with
  | (_, []) => .error (.malformed ⟨start, .unclosed⟩)
  | (inner, _ :: _) =>
    let close := start + 2 + byteCount inner
    let name ← orMisplaced (between? cs (start + 2) close)
    if (Text.Blank.trim name).isEmpty then .error (.malformed ⟨start, .unnamed⟩)
    else .ok (close + 1)

/-- The number of bytes of an operator, or of another character, at the start of a text. -/
def operatorBytes : List Char → Nat
  | [] => 1
  | c :: cs => if cs.head?.any (makesOperator c) then 2 else c.utf8Size

/-- The byte after the token of a form that starts at byte `start`, which is `b` and has the bytes
`later` after it. -/
def tokenEnd (cs : List Char) (start : Nat) (b : Char) (later : List Char) :
    Form → Except Stop Nat
  | .blank => .ok (start + ((b :: later).takeWhile Text.Blank.isAscii).length)
  | .line => do
    let rest ← orMisplaced (from? cs start)
    return start + byteCount (rest.takeWhile (· ≠ '\n'))
  | .block => do
    let rest ← orMisplaced (from? cs (start + 2))
    return start + 2 + byteCount (cutBlock rest).1
  | .string | .quotedName => .ok (start + 1 + (cutQuoted b later).1.length)
  | .mark => .ok (start + 1)
  | .colon => .ok (start + 1 + (later.takeWhile isNameChar).length)
  | .braces => bracesEnd cs start
  | .word => .ok (start + (cutWord (b :: later)).1.length)
  | .number => .ok (start + ((b :: later).takeWhile isNumberChar).length)
  | .operator => do
    let rest ← orMisplaced (from? cs start)
    return start + operatorBytes rest

/-- The tokens from byte `start` on. -/
def scanFrom (cs : List Char) (start : Nat) : Except Stop (List Token) :=
  match _h : (bytes cs).drop start with
  | [] => .ok []
  | b :: later => do
    let stop ← tokenEnd cs start b later (form b later.head?)
    let chars ← orMisplaced (between? cs start stop)
    if start < stop then
      let others ← scanFrom cs stop
      return ⟨(form b later.head?).kind, chars⟩ :: others
    else .error .stuck
termination_by (bytes cs).length - start
decreasing_by
  have hlength := congrArg List.length _h
  rw [List.length_drop, List.length_cons] at hlength
  omega

def readAll (cs : List Char) : Except Stop (List Token) := scanFrom cs 0

end Cql.Token.Bytewise
