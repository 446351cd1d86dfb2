import Cql.Query.Binding

/-!
Reading a statement token by token, and binding its slots one by one. Every placeholder takes the
next slot, and its name stands under the number of the slot. Reading ends at a placeholder that is
written in another dialect than the first one.
-/

namespace Cql.Query.Slotwise

/-- Names under the numbers of their slots, the lowest slot first. -/
abbrev Names := List (Nat × String)

def Names.get? (names : Names) (slot : Nat) : Option String := names.lookup slot

/-- What some tokens of a statement come to. -/
structure Tally where
  canonical : List Char := []
  names : Names := []
  /-- Slots so far, and so the number of the next one. -/
  count : Nat := 0
  /-- The dialect of the first placeholder. -/
  dialect : Option Dialect := none

def Tally.add (tally : Tally) (t : Token) : Except Fault Tally :=
  match dialect? t with
  | none => .ok { tally with canonical := tally.canonical ++ t.chars }
  | some dialect =>
    let first := tally.dialect.getD dialect
    if first ≠ dialect then .error (.mixed first dialect)
    else .ok {
      canonical := tally.canonical ++ canonicalMark
      names :=
        match t.name? with
        | some name => Ordered.put tally.count (String.ofList name) tally.names
        | none => tally.names
      count := tally.count + 1
      dialect := some first }

/-- A query with its names under the numbers of their slots. -/
structure Reading where
  source : String
  canonical : String
  names : Names
  parameterCount : Nat
  attributes : List (String × String) := []
  deriving DecidableEq

def read (source : String) : Except Fault Reading :=
  if Token.isManipulation source.toList then
    match Token.readAll source.toList with
    | .error m => .error (.malformed m)
    | .ok ts => (ts.foldlM Tally.add {}).map fun tally => {
        source
        canonical := String.ofList tally.canonical
        names := tally.names
        parameterCount := tally.count }
  else .ok { source, canonical := source, names := [], parameterCount := 0 }

variable {α : Type}

/-- The values of slots, each looked up by the name of its slot, and the names that were looked
up. -/
def bindSlots (names : Names) (lookup : String → Option α) :
    List Nat → Except Fault (List α) × List String
  | [] => (.ok [], [])
  | slot :: slots =>
    match names.get? slot with
    | none => (.error (.unbound ("#" ++ toString (slot + 1))), [])
    | some name =>
      match lookup name with
      | none => (.error (.unbound name), [name])
      | some value =>
        let later := bindSlots names lookup slots
        (later.1.map (value :: ·), name :: later.2)

def Reading.bind (r : Reading) (lookup : String → Option α) :
    Except Fault (List α) × List String :=
  bindSlots r.names lookup (List.range r.parameterCount)

/-- The names of slots from zero on, in their order. -/
def numbered (names : List String) : Names := names.zipIdx.map Prod.swap

/-- The query with the numbers of its slots. -/
def ofQuery (q : Query) : Reading where
  source := q.source
  canonical := q.canonical
  names := numbered q.names
  parameterCount := q.parameterCount
  attributes := q.attributes

end Cql.Query.Slotwise
