import Cql.Mapping.Memo
import Cql.Predicate.Keys

/-!
Questions about the mappings of entities, answered from a memo.
-/

namespace Cql.Memo

inductive Request
  | columns (e : Entity) (casing : Casing)
  | physical? (e : Entity) (casing : Casing) (logical : String)
  | tables (e : Entity)
  | eligible (e : Entity)
  | column (e : Entity) (casing : Casing) (logical : String)
  /-- Whether two look-ups give the one map. -/
  | sameTwice (e : Entity) (casing : Casing)
  | clear
  | matchKeys (e : Entity) (values : List Value)

inductive Answer
  | columns (m : ColumnMap)
  | name? (name : Option String)
  | tables (names : TableNames)
  | eligible (names : Eligible)
  | name (name : String)
  | flag (b : Bool)
  | nothing
  | predicate (p : Predicate)

def answer : Request → Resolving Answer
  | .columns e casing => return .columns (← columnsOf e casing).value
  | .physical? e casing logical => return .name? ((← columnsOf e casing).value.get? logical)
  | .tables e => return .tables (← tablesOf e)
  | .eligible e => return .eligible (← eligibleOf e)
  | .column e casing logical => return .name (← columnOf e casing logical)
  | .sameTwice e casing => do
    let first ← columnsOf e casing
    let second ← columnsOf e casing
    return .flag (first.serial = second.serial)
  | .clear => do
    Step.update clear
    return .nothing
  | .matchKeys e values =>
    match e.matchKeys values with
    | .error err => throw err
    | .ok p => return .predicate p

end Cql.Memo
