import Cql.Draft

/-!
The ways to begin a draft.
-/

namespace Cql

inductive Origin
  | insert (columns : List String)
  | insertRow (row : Row)
  | insertRows (rows : List Row)
  | insertEntity (e : Entity) (snapshot : Row) (excluded : List String)
  | insertEntities (e : Entity) (snapshots : List Row) (excluded : List String)
  | select (columns : List String)
  | selectAliased (columns : List (String × String))
  | selectWith (modifier : String) (columns : List String)
  | selectEntity (e : Entity) (excluded : List String)
  /-- With the columns of nested fields. -/
  | selectNested (e : Entity) (excluded : List String)
  | update (table : String)
  | updateType (e : Entity)
  | updateEntity (e : Entity) (snapshot : Row) (excluded : List String)
  | deleteFrom (table : String)
  | deleteEntity (e : Entity)
  | delete (columns : List String)

namespace Origin

open Workshop

def start (style : Style) (statement : Statement) : Step Workshop Draft := do
  let buffer ← onPool TextPool.acquire
  return { style, statement, buffer := some buffer }

/-- The entries of a snapshot that an INSERT may write. -/
def insertable (e : Entity) (excluded : List String) (snapshot : Row) : Step Workshop Row := do
  let eligible ← onMemo (Memo.eligibleOf e)
  let names := Eligible.without excluded eligible.insert
  return snapshot.restrict (· ∈ names)

/-- The values that a snapshot has for the keys; the first key without one is a mistake. -/
def keyValues (e : Entity) (snapshot : Row) : Except Error (List Value) :=
  e.keys.mapM fun key =>
    match snapshot.get? key.name with
    | some v => .ok v
    | none => .error (.misuse (.keyMissing e.typeName key.name))

def begin (style : Style) : Origin → Step Workshop Draft
  | .insert columns => start style { operation := .insert, columns := some (.names columns) }
  | .insertRow row => start style { operation := .insert, columns := some (.row row) }
  | .insertRows rows => start style { operation := .insert, columns := some (.rows rows) }
  | .insertEntity e snapshot excluded => do
    let row ← insertable e excluded snapshot
    start style { operation := .insert, entity := some e, columns := some (.row row) }
  | .insertEntities e snapshots excluded => do
    let rows ← snapshots.mapM (insertable e excluded)
    start style { operation := .insert, entity := some e, columns := some (.rows rows) }
  | .select columns => start style { operation := .select, columns := some (.names columns) }
  | .selectAliased columns =>
    start style { operation := .select, columns := some (.aliased columns) }
  | .selectWith modifier columns =>
    start style
      { operation := .select, columns := some (.names columns), modifier := some modifier }
  | .selectEntity e excluded => do
    let eligible ← onMemo (Memo.eligibleOf e)
    let columns := Eligible.without excluded eligible.select
    start style
      ({ operation := .select, columns := some (.names columns) : Statement }.onTarget (.entity e))
  | .selectNested e excluded => do
    let d ← start style ({ operation := .select : Statement }.onTarget (.entity e))
    match ← onMemo (Memo.columnsOf e style.casing).run with
    | .error err => return d.fail err
    | .ok columns =>
      let names := Eligible.without excluded columns.value.logicalNames
      return { d with statement := { d.statement with columns := some (.names names) } }
  | .update table => start style ({ operation := .update : Statement }.onTarget (.table table))
  | .updateType e => start style ({ operation := .update : Statement }.onTarget (.entity e))
  | .updateEntity e snapshot excluded => do
    let d ← start style ({ operation := .update : Statement }.onTarget (.entity e))
    let d ← onMemo (d.apply (.setEntity e snapshot excluded))
    match keyValues e snapshot >>= e.matchKeys with
    | .error err => return d.fail err
    | .ok p => onMemo (d.apply (.filter p))
  | .deleteFrom table => start style ({ operation := .delete : Statement }.onTarget (.table table))
  | .deleteEntity e => start style ({ operation := .delete : Statement }.onTarget (.entity e))
  | .delete columns => start style { operation := .delete, columns := some (.names columns) }

end Origin

end Cql
