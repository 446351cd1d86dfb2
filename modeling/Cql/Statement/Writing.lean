import Cql.Statement.Render

/-!
Writing a statement piece by piece, with the columns in force beside what is written. A subquery
puts the columns of its own entity in their place, or none, and the former ones are put back when it
is written, and also when it fails.
-/

namespace Cql

/-- What was written, and the columns by which names are resolved now. -/
structure Writer where
  memo : Memo
  columns : Option ColumnMap := none
  written : List Piece := []

abbrev Writing := ExceptT Error (Step Writer)

namespace Writing

def ofMemo {α : Type} (x : Resolving α) : Writing α :=
  ExceptT.mk (Step.within Writer.memo (fun memo w => { w with memo }) x.run)

def write (ps : List Piece) : Writing Unit :=
  liftM (Step.update fun w : Writer => { w with written := w.written ++ ps })

/-- Writes what is told by the columns in force. -/
def writeIn (casing : Casing) (pieces : Scope → Except Error (List Piece)) : Writing Unit := do
  let w ← Step.current (σ := Writer)
  let ps ← pieces { casing, columns := w.columns }
  write ps

def writeName (casing : Casing) (column : String) : Writing Unit :=
  writeIn casing fun scope => .ok [scope.name column]

def setColumns (columns : Option ColumnMap) : Step Writer Unit :=
  Step.update fun w => { w with columns }

/-- These columns are in force inside, and the former ones after it. -/
def within (columns : Option ColumnMap) (inside : Writing Unit) : Writing Unit :=
  ExceptT.mk do
    let outer ← Step.current (σ := Writer)
    setColumns columns
    let result ← inside.run
    setColumns outer.columns
    return result

end Writing

open Writing

namespace Selection

/-- The part of a subquery before its WHERE. -/
def writeHead (casing : Casing) (selection : Selection) (target : Target) : Writing Unit := do
  if selection.columns.isEmpty then throw (.lacking .subqueryColumns)
  Writing.write [.text "SELECT "]
  writeIn casing fun scope => .ok <| match fragment? selection.columns with
    | some text => [.text text]
    | none => scope.names selection.columns
  let table ← ofMemo (target.tableName casing)
  Writing.write [.text " FROM ", .text table]

/-- A subquery, given how its WHERE is written. -/
def write (style : Style) (selection : Selection) (filter : Writing Unit) : Writing Unit := do
  if selection.style ≠ style then
    throw (.unsupported (.foreignSubquery selection.style style))
  match selection.target with
  | none => throw (.lacking .subqueryTarget)
  | some target =>
    let inner ← ofMemo <| Scope.ofEntity? style.casing <| match target with
      | .table _ => none
      | .entity e => some e
    within inner.columns do
      selection.writeHead style.casing target
      filter

end Selection

namespace Predicate

mutual

def write (style : Style) : Predicate → Writing Unit
  | .compare column operator value => do
    writeName style.casing column
    Writing.write [.text (" " ++ operator ++ " "), .ofValue (placeholderName column) value]
  | .between column operator low high => do
    let name := placeholderName column
    writeName style.casing column
    Writing.write [.text (" " ++ operator ++ " "), .ofValue (camelAfter "min" name) low,
      .text " AND ", .ofValue (camelAfter "max" name) high]
  | .among column operator values => do
    writeName style.casing column
    Writing.write (.text (" " ++ operator ++ " (") :: valuePieces column values ++ [.text ")"])
  | .negate inner => do
    Writing.write [.text "NOT ("]
    write style inner
    Writing.write [.text ")"]
  | .junction connective [] => throw (.emptyJunction connective)
  | .junction _ [only] => write style only
  | .junction connective (first :: second :: others) => do
    Writing.write [.text "("]
    write style first
    Writing.write [.text ")"]
    writeParts style connective (second :: others)
  | .amongText column operator text => do
    writeName style.casing column
    Writing.write [.text (" " ++ operator ++ " ("), .text text, .text ")"]
  | .amongSelect column operator selection filter => do
    writeName style.casing column
    Writing.write [.text (" " ++ operator ++ " (")]
    selection.write style (writeFilter style filter)
    Writing.write [.text ")"]
  | .raw text => Writing.write [.text text]

/-- The parts of a junction that stand after its first one. -/
def writeParts (style : Style) (connective : Connective) : List Predicate → Writing Unit
  | [] => return
  | p :: ps => do
    Writing.write [.text (" " ++ connective.word ++ " "), .text "("]
    write style p
    Writing.write [.text ")"]
    writeParts style connective ps

def writeFilter (style : Style) : Option Predicate → Writing Unit
  | none => return
  | some p => do
    Writing.write [.text " WHERE "]
    write style p

end

end Predicate

namespace Statement

def writeFilter (style : Style) (s : Statement) : Writing Unit :=
  match s.filter with
  | none => return
  | some (.predicate p) => do
    Writing.write [.text " WHERE "]
    p.write style
  | some (.raw text) => do
    Writing.write [.text " WHERE "]
    writeIn style.casing (·.raw text)

def writeGuard (style : Style) (s : Statement) : Writing Unit :=
  match s.guard with
  | none => return
  | some .ifExists => Writing.write [.text " IF EXISTS"]
  | some (.predicate p) => do
    Writing.write [.text " IF "]
    p.write style
  | some (.raw text) => do
    Writing.write [.text " IF "]
    writeIn style.casing (·.raw text)

def writeInsert (style : Style) (s : Statement) : Writing Unit :=
  match s.columns with
  | none => throw (.lacking .insertColumns)
  | some columns => do
    let table ← ofMemo (s.tableName style)
    Writing.write [.text ("INSERT INTO " ++ table ++ " (")]
    writeIn style.casing fun scope => insertBody style scope columns
    Writing.write (if s.ifNotExists then [.text " IF NOT EXISTS"] else [])
    Writing.write [.text (usingText s.lifetime s.writeTime)]

def writeSelect (style : Style) (s : Statement) : Writing Unit :=
  match s.columns with
  | none => throw (.lacking .selectColumns)
  | some columns => do
    let table ← ofMemo (s.tableName style)
    Writing.write [.text "SELECT "]
    Writing.write <| match s.modifier with
      | none => []
      | some words => [.text (words ++ " ")]
    writeIn style.casing fun scope => selectBody scope columns
    Writing.write [.text (" FROM " ++ table)]
    s.writeFilter style
    writeIn style.casing s.orderPieces
    Writing.write <| match s.limit with
      | none => []
      | some n => [.text (" LIMIT " ++ toString n)]
    Writing.write (if s.allowFiltering then [.text " ALLOW FILTERING"] else [])

def writeUpdate (style : Style) (s : Statement) : Writing Unit := do
  if s.assignments.isEmpty then throw (.lacking .assignments)
  let table ← ofMemo (s.tableName style)
  Writing.write [.text ("UPDATE " ++ table ++ usingText s.lifetime s.writeTime ++ " SET ")]
  writeIn style.casing fun scope => do
    return Piece.separated ", " (← s.assignments.mapM (assignmentPieces scope))
  s.writeFilter style
  s.writeGuard style

def writeDelete (style : Style) (s : Statement) : Writing Unit := do
  let table ← ofMemo (s.tableName style)
  Writing.write [.text "DELETE "]
  writeIn style.casing (deleteBody · s.columns)
  Writing.write [.text ("FROM " ++ table ++ usingText none s.writeTime)]
  s.writeFilter style
  s.writeGuard style

def write (style : Style) (s : Statement) : Writing Unit := do
  let scope ← ofMemo (Scope.ofEntity? style.casing s.entity)
  setColumns scope.columns
  match s.operation with
  | .insert => s.writeInsert style
  | .select => s.writeSelect style
  | .update => s.writeUpdate style
  | .delete => s.writeDelete style

end Statement

end Cql
