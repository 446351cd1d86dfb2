import Cql.Statement.Clause
import Cql.Statement.Render
import Cql.Text.Json
import Cql.TextPool
import Cql.Value.Json

/-!
Drafts of statements. A draft holds a text buffer until it is rendered or dropped. The first
mistake is kept, clauses after it change nothing, and rendering gives it back. A draft is rendered
once.
-/

namespace Cql

/-- A statement as text and the values of its parameters in order. -/
structure Rendered where
  text : String
  parameters : List Value

def Rendered.json (r : Rendered) : String :=
  Text.Json.object [
    ("text", Text.Json.string r.text),
    ("parameters", Text.Json.array (r.parameters.map Value.json))]

structure Draft where
  style : Style
  statement : Statement
  /-- Nothing once the draft is rendered or dropped. -/
  buffer : Option String
  fault : Option Error := none

/-- What drafts share: the memo of names and the pool of buffers. -/
structure Workshop where
  memo : Memo := {}
  pool : TextPool := {}
  deriving Inhabited

namespace Workshop

variable {α : Type}

def onMemo (step : Step Memo α) : Step Workshop α :=
  Step.within Workshop.memo (fun memo w => { w with memo }) step

def onPool (step : Step TextPool α) : Step Workshop α :=
  Step.within Workshop.pool (fun pool w => { w with pool }) step

end Workshop

namespace Draft

def isClosed (d : Draft) : Bool := d.buffer.isNone

/-- Records a mistake if there is none yet. -/
def fail (d : Draft) (e : Error) : Draft := { d with fault := d.fault <|> some e }

def record (d : Draft) : Except Error Statement → Draft
  | .ok statement => { d with statement }
  | .error e => d.fail e

/-- Adds a clause to an open draft without a mistake, if its operation takes the clause. -/
def apply (d : Draft) (clause : Clause) : Step Memo Draft :=
  if d.fault.isSome ∨ d.isClosed then return d
  else if d.statement.operation ∈ clause.kind.operations then
    return d.record (← d.statement.addClause clause)
  else return d.fail (.misuse (.notTaken clause.kind d.statement.operation))

/-- Writes a statement after what is in the buffer. -/
def write (style : Style) (statement : Statement) (buffer : String) :
    Step Memo (Except Error Rendered) := do
  match ← (statement.pieces style).run with
  | .error e => return .error e
  | .ok ps =>
    let rendered : Rendered :=
      { text := buffer ++ Piece.textOf style.binding ps
        parameters := Piece.parametersOf style.binding ps }
    Step.note (.rendered statement.operation rendered.text rendered.parameters.length)
    return .ok rendered

/-- Renders a draft and closes it. The buffer goes back to the pool in any case. -/
def render (d : Draft) : Step Workshop (Except Error Rendered × Draft) := do
  match d.buffer with
  | none => return (.error .closed, d)
  | some buffer =>
    let closed := { d with buffer := none, fault := none }
    let result ← match d.fault with
      | some e => pure (.error e)
      | none => Workshop.onMemo (write d.style d.statement buffer)
    Workshop.onPool (TextPool.release buffer)
    return (result, closed)

/-- Gives back the buffer of a draft that is still open. -/
def drop (d : Draft) : Step Workshop Unit :=
  match d.buffer with
  | none => return
  | some buffer => Workshop.onPool (TextPool.release buffer)

end Draft

end Cql
