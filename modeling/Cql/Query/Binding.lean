import Cql.Query

/-!
Values for the slots of a query, looked up by name.
-/

namespace Cql.Query

variable {α : Type}

/-- The values of the first `count` slots, given the names of slots from `slot` on, and the names
that were looked up. -/
def bindFrom (lookup : String → Option α) (slot : Nat) :
    (count : Nat) → (names : List String) → Except Fault (List α) × List String
  | 0, _ => (.ok [], [])
  | _ + 1, [] => (.error (.unbound ("#" ++ toString (slot + 1))), [])
  | count + 1, name :: names =>
    match lookup name with
    | none => (.error (.unbound name), [name])
    | some value =>
      let later := bindFrom lookup (slot + 1) count names
      (later.1.map (value :: ·), name :: later.2)

/-- The values in the order of slots, and the names that were looked up. A name that stands in
two slots is looked up twice. -/
def bind (q : Query) (lookup : String → Option α) : Except Fault (List α) × List String :=
  bindFrom lookup 0 q.parameterCount q.names

end Cql.Query
