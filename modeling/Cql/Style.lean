import Cql.Casing

/-!
The style of a statement: how its names are written and how values reach it.
-/

namespace Cql

inductive Binding
  /-- Values are written into the text. -/
  | literal
  /-- A question mark stands for a value. -/
  | positional
  /-- A colon and a name stand for a value. -/
  | named
  deriving DecidableEq, Repr, Inhabited

namespace Binding

def all : List Binding := [.literal, .positional, .named]

def label : Binding → String
  | .literal => "Literal"
  | .positional => "Positional"
  | .named => "Named"

end Binding

structure Style where
  casing : Casing := .lowerUnderscore
  binding : Binding := .positional
  deriving DecidableEq, Repr

namespace Style

instance : Inhabited Style := ⟨{}⟩

def label (s : Style) : String := s.casing.label ++ "/" ++ s.binding.label

/-- All styles, by casing and then by binding. -/
def all : List Style := Casing.all.flatMap fun casing => Binding.all.map fun b => ⟨casing, b⟩

end Style

end Cql
