/-!
Documents in which settings are written.
-/

namespace Cql.Settings

inductive Document
  | null
  | bool (b : Bool)
  | int (i : Int)
  /-- A number that is not written as an integer. -/
  | real
  | text (s : String)
  | list (items : List Document)
  | object (members : List (String × Document))
  deriving Inhabited

namespace Document

def members? : Document → Option (List (String × Document))
  | .object members => some members
  | _ => none

/-- An integer from zero on and below a bound. -/
def nat? (bound : Nat) : Document → Option Nat
  | .int i => if 0 ≤ i ∧ i < bound then some i.toNat else none
  | _ => none

/-- A word from a list of choices, or an object that has the word for its only key and null for
its value. -/
def word? : Document → Option String
  | .text s => some s
  | .object [(key, .null)] => some key
  | _ => none

/-- The value of a member, or a default if there is none. -/
def memberD {α : Type} (members : List (String × Document)) (key : String) (default : α)
    (read : Document → Option α) : Option α :=
  match members.lookup key with
  | none => some default
  | some d => read d

def member? {α : Type} (members : List (String × Document)) (key : String)
    (read : Document → Option α) : Option α :=
  (members.lookup key).bind read

end Document

end Cql.Settings
