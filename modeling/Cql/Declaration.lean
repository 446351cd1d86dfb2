/-!
Declarations of records, with attributes on the record and on its fields.
-/

namespace Cql

namespace Declaration

/-- The value that an attribute gives to a key. -/
inductive Literal
  | text (s : String)
  | other
  deriving DecidableEq, Repr

inductive Item
  | word (name : String)
  | assign (key : String) (value : Literal)
  deriving DecidableEq, Repr

def Item.name : Item → String
  | .word name => name
  | .assign key _ => key

/-- The items between the parentheses of one attribute. -/
abbrev Attribute := List Item

structure Member where
  name : String
  type : String
  attributes : List Attribute := []
  deriving Repr

inductive Shape
  /-- Fields with names. -/
  | record (members : List Member)
  /-- Fields without names, or no fields. -/
  | unnamed
  /-- An enumeration or a union. -/
  | other
  deriving Repr

end Declaration

structure Declaration where
  name : String
  /-- Generic parameters. -/
  parameters : List String := []
  attributes : List Declaration.Attribute := []
  shape : Declaration.Shape
  deriving Repr

end Cql
