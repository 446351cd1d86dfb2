import Cql.Casing
import Cql.Declaration.Marks
import Cql.Declaration.TypePath
import Cql.Entity
import Cql.Row

/-!
The description of an entity that a declaration stands for, and the snapshot of its fields. A
field that is neither transient nor nested has one entry in the snapshot.
-/

namespace Cql.Declaration

/-- A field of the description, with the type of a nested entity as it is written. -/
structure Outline where
  logical : String
  /-- The name as it is declared. -/
  declared : String
  marks : Marks
  nestedType : Option String
  deriving Repr

structure Derived where
  /-- The type as it is declared. -/
  type : String
  name : String
  table : Option String
  fields : List Outline
  deriving Repr

/-- A name without the mark for names that are keywords. -/
def plainName (name : String) : List Char :=
  match name.toList with
  | 'r' :: '#' :: cs => cs
  | cs => cs

def logicalName (name : String) : String :=
  String.ofList (Casing.Words.lowerCamel (Casing.Words.ofIdentifier (plainName name)))

namespace Outline

def ofMember (m : Member) : Except Fault Outline := do
  let marks ← Marks.ofAttributes m.attributes
  return {
    logical := logicalName m.name
    declared := m.name
    marks
    nestedType := if marks.isNested then some (TypePath.peel m.type) else none }

/-- The calls that build the description of a field after its name. -/
inductive Call
  | column (name : String)
  | flag (name : String)
  | nested (type : String)
  deriving DecidableEq, Repr

def flags (m : Marks) : List Call :=
  [(m.isKey, "id"), (m.isReadOnly, "read_only"), (m.isFixed, "non_updatable"),
    (m.isTransient, "transient")].filterMap fun (isSet, name) =>
      if isSet then some (.flag name) else none

def calls (o : Outline) : List Call :=
  (o.marks.column.map Call.column).toList ++ flags o.marks ++
    (o.nestedType.map Call.nested).toList

/-- What a call makes of a field, given the places of entity types. -/
def Call.apply (placeOf : String → Nat) (f : Field) : Call → Field
  | .column name => { f with column := some name }
  | .flag "id" => { f with isKey := true }
  | .flag "read_only" => { f with isReadOnly := true }
  | .flag "non_updatable" => { f with isFixed := true }
  | .flag "transient" => { f with isTransient := true }
  | .flag _ => f
  | .nested type => { f with nested := some (placeOf type) }

/-- The field that the calls build, one after the other. -/
def built (placeOf : String → Nat) (o : Outline) : Field :=
  o.calls.foldl (Call.apply placeOf) { name := o.logical }

def isInSnapshot (o : Outline) : Bool := !o.marks.isTransient && !o.marks.isNested

/-- What a snapshot takes for a field. -/
def expression (o : Outline) : String := "::core::clone::Clone::clone(&self." ++ o.declared ++ ")"

/-- The field as the catalog holds it, given the places of entity types. -/
def field (placeOf : String → Nat) (o : Outline) : Field where
  name := o.logical
  column := o.marks.column
  isKey := o.marks.isKey
  isReadOnly := o.marks.isReadOnly
  isFixed := o.marks.isFixed
  isTransient := o.marks.isTransient
  nested := o.nestedType.map placeOf

end Outline

namespace Derived

/-- The logical names of a snapshot and what it takes for them. -/
def snapshot (d : Derived) : List (String × String) :=
  (d.fields.filter (·.isInSnapshot)).map fun o => (o.logical, o.expression)

/-- The row that the snapshot is, given the values of the fields by their declared names. -/
def row (valueOf : String → Value) (d : Derived) : Row :=
  Row.ofList ((d.fields.filter (·.isInSnapshot)).map fun o => (o.logical, valueOf o.declared))

/-- The description in the catalog, of a type that is declared under a path. -/
def entity (path : String) (placeOf : String → Nat) (d : Derived) : Entity where
  typeName := path ++ "::" ++ d.name
  name := d.name
  table := d.table
  fields := d.fields.map (Outline.field placeOf)

end Derived

def members : Shape → Except Fault (List Member)
  | .record members => .ok members
  | .unnamed => .error .unnamedFields
  | .other => .error .noStruct

/-- The entity of a declaration. Of several mistakes the first counts, in the order: generic
parameters, attributes of the record, its shape, its fields one by one, and no fields at all. -/
def derive (d : Declaration) : Except Fault Derived := do
  if !d.parameters.isEmpty then throw .generic
  let table ← table? d.attributes
  let declared ← members d.shape
  let fields ← declared.mapM Outline.ofMember
  if fields.isEmpty then throw .noFields
  return { type := d.name, name := String.ofList (plainName d.name), table, fields }

end Cql.Declaration
