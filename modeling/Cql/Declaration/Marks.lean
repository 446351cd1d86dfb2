import Cql.Declaration
import Cql.Declaration.Keyword

/-!
What the attributes of a declaration say. The marks of a field are gathered over all of its
attributes before contradictions are looked for.
-/

namespace Cql.Declaration

inductive Fault
  | generic
  | unnamedFields
  | noStruct
  | noFields
  | unknownMark (name : String)
  | emptyColumn
  | contradictsTransient
  | contradictsNested
  | unknownTableKey
  | emptyTable
  | commaExpected
  | equalsExpected
  | textExpected
  | unexpectedEnd
  | unexpectedItem
  | keyword (word : String)
  deriving DecidableEq, Repr

def Fault.message : Fault → String
  | .generic => "Entity cannot be derived for generic types"
  | .unnamedFields => "Entity can only be derived for structs with named fields"
  | .noStruct => "Entity can only be derived for structs"
  | .noFields => "Entity requires at least one field"
  | .unknownMark name => "unknown cql field attribute `" ++ name ++ "`"
  | .emptyColumn => "column name is empty"
  | .contradictsTransient => "a transient field cannot also be id, nested or mapped to a column"
  | .contradictsNested => "a nested field maps through its own entity; drop `id`/`column`"
  | .unknownTableKey => "unknown cql struct attribute; expected `table = \"...\"`"
  | .emptyTable => "table must be a non-empty string literal"
  | .commaExpected => "expected `,`"
  | .equalsExpected => "expected `=`"
  | .textExpected => "expected string literal"
  | .unexpectedEnd => "unexpected end of input, expected identifier"
  | .unexpectedItem => "unexpected token"
  | .keyword word => "expected identifier, found keyword `" ++ word ++ "`"

structure Marks where
  column : Option String := none
  isKey : Bool := false
  isReadOnly : Bool := false
  isFixed : Bool := false
  isTransient : Bool := false
  isNested : Bool := false
  deriving DecidableEq, Repr

namespace Marks

/-- The marks with a flag set, if there is a flag of that name. -/
def flag? (m : Marks) (name : String) : Option Marks :=
  match name with
  | "id" => some { m with isKey := true }
  | "read_only" => some { m with isReadOnly := true }
  | "non_updatable" => some { m with isFixed := true }
  | "transient" => some { m with isTransient := true }
  | "nested" => some { m with isNested := true }
  | _ => none

/-- The marks with one more item whose name is no keyword. -/
def addNamed (m : Marks) : Item → Except Fault Marks
  | .word name =>
    if name = "column" then .error .equalsExpected
    else match m.flag? name with
      | some marked => .ok marked
      | none => .error (.unknownMark name)
  | .assign key value =>
    if key = "column" then
      match value with
      | .other => .error .textExpected
      | .text s => if s.isEmpty then .error .emptyColumn else .ok { m with column := some s }
    else if (m.flag? key).isSome then .error .commaExpected
    else .error (.unknownMark key)

def add (m : Marks) (item : Item) : Except Fault Marks :=
  if Keyword.isKeyword item.name then .error (.keyword item.name) else m.addNamed item

def ofAttribute (a : Attribute) : Except Fault Marks := a.foldlM add {}

/-- The marks of two attributes; of two columns the later one counts. -/
def merge (m later : Marks) : Marks where
  column := later.column <|> m.column
  isKey := m.isKey || later.isKey
  isReadOnly := m.isReadOnly || later.isReadOnly
  isFixed := m.isFixed || later.isFixed
  isTransient := m.isTransient || later.isTransient
  isNested := m.isNested || later.isNested

def gather (attributes : List Attribute) : Except Fault Marks :=
  attributes.foldlM (fun m a => (ofAttribute a).map m.merge) {}

/-- A transient field is nothing else, and a nested one is no key and has no column. -/
def check (m : Marks) : Except Fault Marks :=
  if m.isTransient ∧ (m.isKey ∨ m.isNested ∨ m.column.isSome) then .error .contradictsTransient
  else if m.isNested ∧ (m.isKey ∨ m.column.isSome) then .error .contradictsNested
  else .ok m

def ofAttributes (attributes : List Attribute) : Except Fault Marks :=
  (gather attributes).bind check

end Marks

/-- The table that items name, of which there is just one, and whose name may start a path. -/
def tableOfItems : Attribute → Except Fault String
  | [] => .error .unexpectedEnd
  | .word _ :: _ => .error .equalsExpected
  | .assign _ _ :: _ :: _ => .error .unexpectedItem
  | [.assign key value] =>
    if key ≠ "table" then .error .unknownTableKey
    else match value with
      | .text s => if s.isEmpty then .error .emptyTable else .ok s
      | .other => .error .emptyTable

/-- The table that one attribute of a record names. -/
def tableOf (a : Attribute) : Except Fault String :=
  match (a.head?.map Item.name).filter Keyword.endsPath with
  | some word => .error (.keyword word)
  | none => tableOfItems a

/-- The table that the last attribute names. -/
def table? (attributes : List Attribute) : Except Fault (Option String) :=
  attributes.foldlM (fun _ a => (tableOf a).map some) none

end Cql.Declaration
