import Cql.Casing

/-!
Descriptions of entity types. A field that holds another entity refers to it by its place in the
catalog of all entities.
-/

namespace Cql

structure Field where
  /-- The logical name. -/
  name : String
  /-- The physical name under every casing, if it is declared. -/
  column : Option String := none
  isKey : Bool := false
  isReadOnly : Bool := false
  /-- Written when the entity is inserted and never after. -/
  isFixed : Bool := false
  isTransient : Bool := false
  nested : Option Nat := none
  deriving DecidableEq, Repr

structure Entity where
  typeName : String
  /-- The simple name, from which the name of the table is made. -/
  name : String
  table : Option String := none
  fields : List Field := []
  deriving DecidableEq, Repr, Inhabited

abbrev Catalog := List Entity

namespace Field

/-- The field maps to a column of its own entity. -/
def isColumn (f : Field) : Bool := !f.isTransient && f.nested.isNone

def physical (casing : Casing) (f : Field) : String := f.column.getD (casing.physical f.name)

def nestedEntity? (catalog : Catalog) (f : Field) : Option Entity := f.nested.bind (catalog[·]?)

end Field

namespace Entity

def field? (e : Entity) (name : String) : Option Field := e.fields.find? (·.name = name)

def keys (e : Entity) : List Field := e.fields.filter (·.isKey)

/-- Entities of one type name count as one type. -/
def sameType (e other : Entity) : Bool := e.typeName = other.typeName

end Entity

end Cql
