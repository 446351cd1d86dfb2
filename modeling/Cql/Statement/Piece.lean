import Cql.Style
import Cql.Token.Scan
import Cql.Value.Literal

/-!
The pieces of a rendered statement. Text and parameters are two views of the pieces; the binding
decides what stands in the text for a value.
-/

namespace Cql

inductive Piece
  | text (s : String)
  /-- A value, and the name of the placeholder that may stand for it. -/
  | value (name : String) (v : Value)
  /-- A placeholder whose value the caller binds. -/
  | hole (name : String)

namespace Piece

/-- An expression is text in every binding. -/
def ofValue (name : String) : Value → Piece
  | .expr s => .text s
  | v => .value name v

def placeholder (binding : Binding) (name : String) : String :=
  match binding with
  | .named => ":" ++ name
  | _ => "?"

def written (binding : Binding) : Piece → String
  | .text s => s
  | .value name v =>
    match binding with
    | .literal => v.literal
    | _ => placeholder binding name
  | .hole name => placeholder binding name

@[simp]
theorem written_text (binding : Binding) (s : String) : written binding (.text s) = s := rfl

def parameter? (binding : Binding) : Piece → Option Value
  | .value _ v => if binding = .literal then none else some v
  | _ => none

def textOf (binding : Binding) (ps : List Piece) : String := String.join (ps.map (written binding))

@[simp]
theorem textOf_nil (binding : Binding) : textOf binding [] = "" := rfl

@[simp]
theorem textOf_cons (binding : Binding) (p : Piece) (ps : List Piece) :
    textOf binding (p :: ps) = written binding p ++ textOf binding ps := by
  simp [textOf]

@[simp]
theorem textOf_append (binding : Binding) (ps qs : List Piece) :
    textOf binding (ps ++ qs) = textOf binding ps ++ textOf binding qs := by
  simp [textOf]

def parametersOf (binding : Binding) (ps : List Piece) : List Value :=
  ps.filterMap (parameter? binding)

/-- Items with a text between them. -/
def separated (separator : String) : List (List Piece) → List Piece
  | [] => []
  | [item] => item
  | item :: next :: items => item ++ .text separator :: separated separator (next :: items)

end Piece

/-- The name of the placeholder for a column: letters, digits and underscores of its last
segment. -/
def placeholderName (column : String) : String :=
  let last := (column.toList.reverse.takeWhile (· ≠ '.')).reverse
  match last.filter Token.isNameChar with
  | [] => "p"
  | name => String.ofList name

/-- A name with a word before it, in camel case. -/
def camelAfter (word : String) (name : String) : String :=
  word ++ match name.toList with
    | [] => ""
    | c :: cs => String.ofList (c.toUpper :: cs)

end Cql
