import Cql.Predicate.Keys
import Cql.Row

/-!
Statements as they are drafted: which operation, on what, and with which clauses.
-/

namespace Cql

inductive Columns
  | names (columns : List String)
  /-- Columns with aliases. -/
  | aliased (columns : List (String × String))
  | row (row : Row)
  /-- Rows whose columns are those of the first. -/
  | rows (rows : List Row)

inductive Assignment
  /-- A value that the caller binds. -/
  | hole (column : String)
  | value (column : String) (value : Value)
  | raw (text : String)

inductive Filter
  | predicate (p : Predicate)
  | raw (text : String)

inductive Guard
  | ifExists
  | predicate (p : Predicate)
  | raw (text : String)

inductive OrderItem
  | column (name : String) (direction : Option Direction)
  | raw (text : String)

structure Statement where
  operation : Operation
  target : Option Target := none
  /-- The entity whose columns the names are. -/
  entity : Option Entity := none
  columns : Option Columns := none
  /-- Words after SELECT. -/
  modifier : Option String := none
  assignments : List Assignment := []
  filter : Option Filter := none
  guard : Option Guard := none
  ifNotExists : Bool := false
  order : List OrderItem := []
  limit : Option Nat := none
  lifetime : Option Nat := none
  writeTime : Option Int := none
  allowFiltering : Bool := false

namespace Statement

/-- The same statement on a target; an entity brings its columns. -/
def onTarget (s : Statement) (target : Target) : Statement :=
  match target with
  | .table _ => { s with target := some target }
  | .entity e => { s with target := some target, entity := some e }

end Statement

end Cql
