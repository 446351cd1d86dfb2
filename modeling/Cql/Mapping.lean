import Cql.Entity

/-!
What follows from the description of an entity: the physical names of its columns, the names of
its table, and the properties that each operation may touch.
-/

namespace Cql

/-- Physical names by logical ones, in the order of declaration. -/
structure ColumnMap where
  entries : List (String × String) := []
  deriving DecidableEq, Repr, Inhabited

namespace ColumnMap

def get? (m : ColumnMap) (logical : String) : Option String := m.entries.lookup logical

def size (m : ColumnMap) : Nat := m.entries.length

def logicalNames (m : ColumnMap) : List String := m.entries.map Prod.fst

/-- The entry of a nested field for an entry of the entity that it holds. A physical name that
already has a qualifier keeps it. -/
def qualify (field table : String) (entry : String × String) : String × String :=
  (field ++ "." ++ entry.1,
    if '.' ∈ entry.2.toList then entry.2 else table ++ "." ++ entry.2)

end ColumnMap

/-- The name of a table under every casing. -/
structure TableNames where
  lowerUnderscore : String
  upperUnderscore : String
  lowerCamel : String
  deriving DecidableEq, Repr

namespace TableNames

def ofEntity (e : Entity) : TableNames where
  lowerUnderscore := e.table.getD (Casing.lowerUnderscore.physical e.name)
  upperUnderscore := e.table.getD (Casing.upperUnderscore.physical e.name)
  lowerCamel := e.table.getD (Casing.lowerCamel.physical e.name)

def get (names : TableNames) : Casing → String
  | .lowerUnderscore => names.lowerUnderscore
  | .upperUnderscore => names.upperUnderscore
  | .lowerCamel => names.lowerCamel

end TableNames

/-- Logical names of the properties that each operation may touch. -/
structure Eligible where
  select : List String
  insert : List String
  update : List String
  /-- A delete names its columns itself. -/
  delete : List String := []
  deriving DecidableEq, Repr

namespace Eligible

def ofEntity (e : Entity) : Eligible where
  select := (e.fields.filter (·.isColumn)).map (·.name)
  insert := (e.fields.filter fun f => f.isColumn && !f.isReadOnly).map (·.name)
  update := (e.fields.filter fun f => f.isColumn && !f.isReadOnly && !f.isFixed).map (·.name)

/-- The names that are not excluded. -/
def without (excluded names : List String) : List String := names.filter (· ∉ excluded)

end Eligible

end Cql
