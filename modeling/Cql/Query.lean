import Cql.Ordered
import Cql.Query.Fault
import Cql.Token.Verb

/-!
A statement text with its placeholders in the canonical form, the question mark. The names that
the placeholders carried are kept in the order of their slots; a text whose placeholders are
question marks has no names. A text that neither reads nor writes data is kept as it is.
-/

namespace Cql

structure Query where
  source : String
  canonical : String
  /-- The name of each slot, or nothing. -/
  names : List String
  parameterCount : Nat
  /-- Attributes from the host, in the order of their names. -/
  attributes : List (String × String) := []
  deriving DecidableEq, Repr

namespace Query

def dialect? (t : Token) : Option Dialect :=
  match t.kind with
  | .positional => some .mark
  | .colonNamed => some .colon
  | .braceNamed => some .braces
  | _ => none

/-- The first dialect and the earliest one that differs from it. -/
def mixture? : List Dialect → Option (Dialect × Dialect)
  | [] => none
  | d :: ds => (ds.find? (· ≠ d)).map fun e => (d, e)

def canonicalMark : List Char := ['?']

def canonicalChars (t : Token) : List Char := if t.isPlaceholder then canonicalMark else t.chars

/-- The query of a text whose tokens are known. -/
def ofTokens (source : String) (ts : List Token) : Except Fault Query :=
  match mixture? (ts.filterMap dialect?) with
  | some (first, second) => .error (.mixed first second)
  | none => .ok {
      source
      canonical := String.ofList (ts.flatMap canonicalChars)
      names := (ts.filterMap Token.name?).map String.ofList
      parameterCount := ts.countP Token.isPlaceholder }

def verbatim (source : String) : Query :=
  { source, canonical := source, names := [], parameterCount := 0 }

def read (source : String) : Except Fault Query :=
  if Token.isManipulation source.toList then
    match Token.readAll source.toList with
    | .error m => .error (.malformed m)
    | .ok ts => ofTokens source ts
  else .ok (verbatim source)

def isNamed (q : Query) : Bool := !q.names.isEmpty

def withAttributes (q : Query) (attributes : List (String × String)) : Query :=
  { q with attributes := attributes.foldl (fun sorted a => Ordered.put a.1 a.2 sorted) [] }

end Query

end Cql
