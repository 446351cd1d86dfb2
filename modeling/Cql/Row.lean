import Cql.Value

/-!
Named values in the order in which their names were first put. Rows are what an INSERT writes and
what an entity gives as its snapshot.
-/

namespace Cql

structure Row where
  entries : List (String × Value) := []
  deriving Inhabited, Repr

namespace Row

def empty : Row := {}

/-- Sets the value of a name in its place, or puts a new name at the end. -/
def putEntry (name : String) (value : Value) : List (String × Value) → List (String × Value)
  | [] => [(name, value)]
  | (n, v) :: rest =>
    if n = name then (name, value) :: rest else (n, v) :: putEntry name value rest

def put (row : Row) (name : String) (value : Value) : Row := ⟨putEntry name value row.entries⟩

def ofList (entries : List (String × Value)) : Row :=
  entries.foldl (fun row e => row.put e.1 e.2) empty

def names (row : Row) : List String := row.entries.map Prod.fst

def get? (row : Row) (name : String) : Option Value := row.entries.lookup name

def contains (row : Row) (name : String) : Bool := (row.get? name).isSome

/-- Only the entries whose names are kept. -/
def restrict (row : Row) (keep : String → Bool) : Row := ⟨row.entries.filter (keep ·.1)⟩

def size (row : Row) : Nat := row.entries.length

def isEmpty (row : Row) : Bool := row.entries.isEmpty

def sameEntries : List (String × Value) → List (String × Value) → Bool
  | [], [] => true
  | (m, v) :: es, (n, w) :: fs => m == n && v.same w && sameEntries es fs
  | _, _ => false

/-- Equal entries in equal order. -/
def same (row other : Row) : Bool := sameEntries row.entries other.entries

end Row

end Cql
