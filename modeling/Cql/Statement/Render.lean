import Cql.Mapping.Memo
import Cql.Reserved
import Cql.Statement
import Cql.Statement.Piece

/-!
Rendering of statements to pieces. Clauses stand in a fixed order for each operation, whatever
the order in which they were given. Names are resolved by the innermost SELECT around them.
-/

namespace Cql

/-- How names are resolved: by a column map, if there is one, and else by the casing. -/
structure Scope where
  casing : Casing
  columns : Option ColumnMap := none

namespace Scope

def resolve (scope : Scope) (logical : String) : String :=
  (scope.columns.bind (·.get? logical)).getD (scope.casing.physical logical)

def name (scope : Scope) (logical : String) : Piece := .text (scope.resolve logical)

def names (scope : Scope) (columns : List String) : List Piece :=
  Piece.separated ", " (columns.map fun column => [scope.name column])

/-- The text of a token in raw text: words that are neither reserved nor names of functions are
names of columns. -/
def tokenText (scope : Scope) (t : Token) (following : List Token) : String :=
  if t.kind = .word ∧ !Reserved.isReserved t.chars ∧ !t.isFunctionName following then
    scope.resolve t.text
  else t.text

def rawTokens (scope : Scope) : List Token → List Piece
  | [] => []
  | t :: ts => .text (scope.tokenText t ts) :: rawTokens scope ts

/-- Raw text with its names resolved. -/
def raw (scope : Scope) (text : String) : Except Error (List Piece) :=
  match Token.readAll text.toList with
  | .error m => .error (.query (.malformed m))
  | .ok ts => .ok (scope.rawTokens ts)

end Scope

/-- A single column with a blank or a comma in it is text that is already written out. -/
def fragment? : List String → Option String
  | [column] => if ' ' ∈ column.toList ∨ ',' ∈ column.toList then some column else none
  | _ => none

namespace Target

def tableName (casing : Casing) : Target → Step Memo String
  | .table name => return name
  | .entity e => return (← Memo.tablesOf e).get casing

end Target

/-- The scope of an entity's columns, or of no columns. -/
def Scope.ofEntity? (casing : Casing) : Option Entity → Resolving Scope
  | none => return { casing }
  | some e => do
    let columns ← Memo.columnsOf e casing
    return { casing, columns := some columns.value }

namespace Selection

/-- The scope inside a subquery, the name of its table and its columns. A subquery is checked for
its style, its target and its columns, in this order. -/
def opening (style : Style) (selection : Selection) : Resolving (Scope × List Piece) := do
  if selection.style ≠ style then
    throw (.unsupported (.foreignSubquery selection.style style))
  match selection.target with
  | none => throw (.lacking .subqueryTarget)
  | some target =>
    let scope ← Scope.ofEntity? style.casing <| match target with
      | .table _ => none
      | .entity e => some e
    if selection.columns.isEmpty then throw (.lacking .subqueryColumns)
    let columns := match fragment? selection.columns with
      | some text => [.text text]
      | none => scope.names selection.columns
    let table ← target.tableName style.casing
    return (scope, .text "SELECT " :: columns ++ [.text " FROM ", .text table])

end Selection

namespace Predicate

def memberPieces (scope : Scope) (column operator : String) (inside : List Piece) : List Piece :=
  scope.name column :: .text (" " ++ operator ++ " (") :: inside ++ [.text ")"]

def valuePieces (column : String) (values : List Value) : List Piece :=
  let name := placeholderName column
  Piece.separated "," (values.zipIdx.map fun (v, i) => [.ofValue (name ++ toString (i + 1)) v])

def junctionPieces (connective : Connective) : List (List Piece) → List Piece
  | [only] => only
  | parts => Piece.separated (" " ++ connective.word ++ " ")
      (parts.map fun part => .text "(" :: part ++ [.text ")"])

mutual

def pieces (style : Style) (scope : Scope) : Predicate → Resolving (List Piece)
  | .compare column operator value =>
    return [scope.name column, .text (" " ++ operator ++ " "),
      .ofValue (placeholderName column) value]
  | .between column operator low high =>
    let name := placeholderName column
    return [scope.name column, .text (" " ++ operator ++ " "),
      .ofValue (camelAfter "min" name) low, .text " AND ",
      .ofValue (camelAfter "max" name) high]
  | .among column operator values =>
    return memberPieces scope column operator (valuePieces column values)
  | .negate inner => do
    let inside ← pieces style scope inner
    return .text "NOT (" :: inside ++ [.text ")"]
  | .junction connective [] => throw (.emptyJunction connective)
  | .junction connective parts => do
    let parts ← partPieces style scope parts
    return junctionPieces connective parts
  | .amongText column operator text =>
    return memberPieces scope column operator [.text text]
  | .amongSelect column operator selection filter => do
    let (inner, opening) ← selection.opening style
    let closing ← filterPieces style inner filter
    return memberPieces scope column operator (opening ++ closing)
  | .raw text => return [.text text]

def partPieces (style : Style) (scope : Scope) : List Predicate → Resolving (List (List Piece))
  | [] => return []
  | p :: ps => do
    let first ← pieces style scope p
    let others ← partPieces style scope ps
    return first :: others

def filterPieces (style : Style) (scope : Scope) : Option Predicate → Resolving (List Piece)
  | none => return []
  | some p => do
    let inside ← pieces style scope p
    return .text " WHERE " :: inside

end

end Predicate

namespace Statement

def tableName (style : Style) (s : Statement) : Resolving String :=
  match s.target, s.entity with
  | some target, _ => target.tableName style.casing
  | none, some e => return (← Memo.tablesOf e).get style.casing
  | none, none => throw (.lacking (.target s.operation))

def filterPieces (style : Style) (scope : Scope) (s : Statement) : Resolving (List Piece) :=
  match s.filter with
  | none => return []
  | some (.predicate p) => return .text " WHERE " :: (← p.pieces style scope)
  | some (.raw text) => return .text " WHERE " :: (← scope.raw text)

def guardPieces (style : Style) (scope : Scope) (s : Statement) : Resolving (List Piece) :=
  match s.guard with
  | none => return []
  | some .ifExists => return [.text " IF EXISTS"]
  | some (.predicate p) => return .text " IF " :: (← p.pieces style scope)
  | some (.raw text) => return .text " IF " :: (← scope.raw text)

def usingText (lifetime : Option Nat) (writeTime : Option Int) : String :=
  match lifetime, writeTime with
  | none, none => ""
  | some ttl, none => " USING TTL " ++ toString ttl
  | none, some time => " USING TIMESTAMP " ++ toString time
  | some ttl, some time => " USING TTL " ++ toString ttl ++ " AND TIMESTAMP " ++ toString time

/-- The values of a row for some columns; rows count from zero. -/
def rowPieces (row : Row) (index : Nat) (columns : List String) : Except Error (List Piece) := do
  let values ← columns.mapM fun column =>
    match row.get? column with
    | some v => .ok [.ofValue (placeholderName column) v]
    | none => .error (.misuse (.cellMissing index column))
  return .text "(" :: Piece.separated "," values ++ [.text ")"]

def rowsPieces (columns : List String) (index : Nat) : List Row → Except Error (List (List Piece))
  | [] => .ok []
  | row :: rows => do
    let first ← rowPieces row index columns
    let others ← rowsPieces columns (index + 1) rows
    return first :: others

/-- The columns of an INSERT, and its values. -/
def insertBody (style : Style) (scope : Scope) : Columns → Except Error (List Piece)
  | .names columns =>
    if columns.isEmpty then .error (.lacking .insertColumns)
    else
      let holes := columns.map fun column => [.hole (placeholderName column)]
      .ok (scope.names columns ++ .text ") VALUES (" :: Piece.separated "," holes ++ [.text ")"])
  | .row row =>
    if row.isEmpty then .error (.lacking .insertColumns)
    else do
      let values ← rowPieces row 0 row.names
      return scope.names row.names ++ .text ") VALUES " :: values
  | .rows [] => .error (.lacking .insertRows)
  | .rows (first :: others) =>
    if first.isEmpty then .error (.lacking .insertRows)
    else if !others.isEmpty ∧ style.binding = .named then .error (.unsupported .namedRows)
    else do
      let groups ← rowsPieces first.names 0 (first :: others)
      return scope.names first.names ++ .text ") VALUES " :: Piece.separated ", " groups
  | .aliased _ => .error (.unsupported .insertAliases)

def insertPieces (style : Style) (scope : Scope) (s : Statement) : Resolving (List Piece) :=
  match s.columns with
  | none => throw (.lacking .insertColumns)
  | some columns => do
    let table ← s.tableName style
    let body ← insertBody style scope columns
    let condition := if s.ifNotExists then [.text " IF NOT EXISTS"] else []
    return .text ("INSERT INTO " ++ table ++ " (") :: body ++ condition ++
      [.text (usingText s.lifetime s.writeTime)]

def aliasPiece (name : String) : Piece := .text (" AS \"" ++ name ++ "\"")

/-- A column of a SELECT. An alias keeps its logical name where the physical name differs. -/
def selectColumn (scope : Scope) (column : String) : List Piece :=
  if !scope.casing.isLogical ∧ column ≠ "*" ∧ scope.resolve column ≠ column then
    [scope.name column, aliasPiece column]
  else [scope.name column]

def selectBody (scope : Scope) : Columns → Except Error (List Piece)
  | .names columns =>
    if columns.isEmpty then .error (.lacking .selectColumns)
    else match fragment? columns with
      | some text => .ok [.text text]
      | none => .ok (Piece.separated ", " (columns.map (selectColumn scope)))
  | .aliased columns =>
    if columns.isEmpty then .error (.lacking .selectColumns)
    else .ok (Piece.separated ", " (columns.map fun (column, name) =>
      [scope.name column, aliasPiece name]))
  | .row _ | .rows _ => .error (.unsupported .selectValues)

def orderItem (scope : Scope) : OrderItem → Except Error (List Piece)
  | .column column none => .ok [scope.name column]
  | .column column (some direction) => .ok [scope.name column, .text (" " ++ direction.word)]
  | .raw text => scope.raw text

def orderPieces (scope : Scope) (s : Statement) : Except Error (List Piece) :=
  if s.order.isEmpty then .ok []
  else do
    let items ← s.order.mapM (orderItem scope)
    return .text " ORDER BY " :: Piece.separated ", " items

def selectPieces (style : Style) (scope : Scope) (s : Statement) : Resolving (List Piece) :=
  match s.columns with
  | none => throw (.lacking .selectColumns)
  | some columns => do
    let table ← s.tableName style
    let body ← selectBody scope columns
    let filter ← s.filterPieces style scope
    let order ← s.orderPieces scope
    let modifier := match s.modifier with
      | none => []
      | some words => [.text (words ++ " ")]
    let limit := match s.limit with
      | none => []
      | some n => [.text (" LIMIT " ++ toString n)]
    let filtering := if s.allowFiltering then [.text " ALLOW FILTERING"] else []
    return .text "SELECT " :: modifier ++ body ++ .text (" FROM " ++ table) :: filter ++ order ++
      limit ++ filtering

def assignmentPieces (scope : Scope) : Assignment → Except Error (List Piece)
  | .hole column => .ok [scope.name column, .text " = ", .hole (placeholderName column)]
  | .value column v => .ok [scope.name column, .text " = ", .ofValue (placeholderName column) v]
  | .raw text => scope.raw text

def updatePieces (style : Style) (scope : Scope) (s : Statement) : Resolving (List Piece) := do
  if s.assignments.isEmpty then throw (.lacking .assignments)
  let table ← s.tableName style
  let assignments ← s.assignments.mapM (assignmentPieces scope ·)
  let filter ← s.filterPieces style scope
  let guard ← s.guardPieces style scope
  return .text ("UPDATE " ++ table ++ usingText s.lifetime s.writeTime ++ " SET ") ::
    Piece.separated ", " assignments ++ filter ++ guard

def deleteBody (scope : Scope) : Option Columns → Except Error (List Piece)
  | none => .ok []
  | some (.names columns) =>
    if columns.isEmpty then .ok []
    else match fragment? columns with
      | some text => .ok [.text (text ++ " ")]
      | none => .ok (scope.names columns ++ [.text " "])
  | some _ => .error (.unsupported .deleteColumns)

def deletePieces (style : Style) (scope : Scope) (s : Statement) : Resolving (List Piece) := do
  let table ← s.tableName style
  let body ← deleteBody scope s.columns
  let filter ← s.filterPieces style scope
  let guard ← s.guardPieces style scope
  return .text "DELETE " :: body ++
    .text ("FROM " ++ table ++ usingText none s.writeTime) :: filter ++ guard

def pieces (style : Style) (s : Statement) : Resolving (List Piece) := do
  let scope ← Scope.ofEntity? style.casing s.entity
  match s.operation with
  | .insert => s.insertPieces style scope
  | .select => s.selectPieces style scope
  | .update => s.updatePieces style scope
  | .delete => s.deletePieces style scope

end Statement

end Cql
