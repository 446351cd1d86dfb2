import Cql.Mapping.Memo
import Cql.Statement

/-!
Clauses, and what each adds to a statement. A target, a filter and a guard can be given once; a
second one is a mistake. Clauses that stand for one word or number may be given again, and the
last one counts.
-/

namespace Cql

inductive Clause
  | into (target : Target)
  | source (target : Target)
  | setHoles (columns : List String)
  | setValue (column : String) (value : Value)
  | setRow (row : Row)
  /-- The properties of an entity that an update may touch, without its keys. -/
  | setEntity (e : Entity) (snapshot : Row) (excluded : List String)
  | setRaw (text : String)
  | filter (p : Predicate)
  | filterRaw (text : String)
  | filterKeys (values : List Value)
  | order (columns : List (String × Option Direction))
  | orderRaw (text : String)
  | limit (count : Nat)
  | allowFiltering
  | lifetime (seconds : Nat)
  | writeTime (micros : Int)
  | guard (p : Predicate)
  | guardRaw (text : String)
  | ifExists
  | ifNotExists

namespace Clause

def kind : Clause → ClauseKind
  | .into _ => .into
  | .source _ => .source
  | .setHoles _ | .setValue .. | .setRow _ | .setEntity .. | .setRaw _ => .assignment
  | .filter _ | .filterRaw _ | .filterKeys _ => .filter
  | .order _ | .orderRaw _ => .order
  | .limit _ => .limit
  | .allowFiltering => .allowFiltering
  | .lifetime _ => .lifetime
  | .writeTime _ => .writeTime
  | .guard _ | .guardRaw _ => .guard
  | .ifExists => .ifExists
  | .ifNotExists => .ifNotExists

end Clause

namespace Statement

def setTarget (s : Statement) (clause : ClauseKind) (target : Target) : Except Error Statement :=
  match s.target with
  | some _ => .error (.misuse (.targetTaken clause))
  | none => .ok (s.onTarget target)

def assign (s : Statement) (assignments : List Assignment) : Statement :=
  { s with assignments := s.assignments ++ assignments }

def setFilter (s : Statement) (f : Filter) : Except Error Statement :=
  match s.filter with
  | some _ => .error (.misuse .filterTaken)
  | none => .ok { s with filter := some f }

def setGuard (s : Statement) (g : Guard) : Except Error Statement :=
  match s.guard with
  | some _ => .error (.misuse .guardTaken)
  | none => .ok { s with guard := some g }

def addOrder (s : Statement) (items : List OrderItem) : Statement :=
  { s with order := s.order ++ items }

def rowAssignments (row : Row) : List Assignment := row.entries.map fun (c, v) => .value c v

/-- The assignments of an entity's snapshot, in the order of its fields. -/
def entityAssignments (e : Entity) (eligible : Eligible) (snapshot : Row) (excluded : List String) :
    List Assignment :=
  let settable := (Eligible.without excluded eligible.update).filter fun name =>
    !(e.field? name).any (·.isKey)
  settable.filterMap fun name => (snapshot.get? name).map (.value name)

/-- The statement with one more clause, given the properties that each operation may touch. -/
def add (eligibleOf : Entity → Eligible) (s : Statement) : Clause → Except Error Statement
  | .into target => s.setTarget .into target
  | .source target => s.setTarget .source target
  | .setHoles columns => .ok (s.assign (columns.map .hole))
  | .setValue column value => .ok (s.assign [.value column value])
  | .setRow row => .ok (s.assign (rowAssignments row))
  | .setEntity e snapshot excluded =>
    .ok ({ s with entity := s.entity <|> some e }.assign
      (entityAssignments e (eligibleOf e) snapshot excluded))
  | .setRaw text => .ok (s.assign [.raw text])
  | .filter p => s.setFilter (.predicate p)
  | .filterRaw text => s.setFilter (.raw text)
  | .filterKeys values =>
    match s.entity with
    | none => .error (.misuse .keysWithoutEntity)
    | some e => (e.matchKeys values).bind fun p => s.setFilter (.predicate p)
  | .order columns => .ok (s.addOrder (columns.map fun (c, d) => .column c d))
  | .orderRaw text => .ok (s.addOrder [.raw text])
  | .limit count => .ok { s with limit := some count }
  | .allowFiltering => .ok { s with allowFiltering := true }
  | .lifetime seconds => .ok { s with lifetime := some seconds }
  | .writeTime micros => .ok { s with writeTime := some micros }
  | .guard p => s.setGuard (.predicate p)
  | .guardRaw text => s.setGuard (.raw text)
  | .ifExists => s.setGuard .ifExists
  | .ifNotExists => .ok { s with ifNotExists := true }

/-- As `add`, with the properties from the memo. They are looked up for the one clause that needs
them. -/
def addClause (s : Statement) (clause : Clause) : Step Memo (Except Error Statement) :=
  match clause with
  | .setEntity e _ _ => do
    let eligible ← Memo.eligibleOf e
    return s.add (fun _ => eligible) clause
  | _ => return s.add Eligible.ofEntity clause

end Statement

end Cql
