import Cql.Entity
import Cql.Grammar
import Cql.Style
import Cql.Value

/-!
Predicates of WHERE and IF clauses. Column names in them are logical.
-/

namespace Cql

/-- What a statement reads or writes. -/
inductive Target
  /-- A table by its own name. -/
  | table (name : String)
  | entity (e : Entity)
  deriving DecidableEq, Repr

/-- The head of a subquery: its columns and its target, in the style it was made for. -/
structure Selection where
  style : Style
  columns : List String
  target : Option Target := none
  deriving DecidableEq, Repr

inductive Predicate
  | compare (column operator : String) (value : Value)
  | between (column operator : String) (low high : Value)
  | among (column operator : String) (values : List Value)
  | negate (inner : Predicate)
  | junction (connective : Connective) (parts : List Predicate)
  /-- A subquery that is given as text. -/
  | amongText (column operator text : String)
  | amongSelect (column operator : String) (selection : Selection) (filter : Option Predicate)
  | raw (text : String)
  deriving Repr

namespace Predicate

instance : Inhabited Predicate := ⟨.raw ""⟩

def equal (column : String) (value : Value) : Predicate := .compare column "=" value

/-- Both predicates; a conjunction on the left takes the other one as its last part. -/
def conjoin : Predicate → Predicate → Predicate
  | .junction .and parts, other => .junction .and (parts ++ [other])
  | first, other => .junction .and [first, other]

def sameTarget : Option Target → Option Target → Bool
  | none, none => true
  | some (.table a), some (.table b) => a == b
  | some (.entity a), some (.entity b) => a.sameType b
  | _, _ => false

def sameSelection (a b : Selection) : Bool :=
  a.style = b.style && a.columns == b.columns && sameTarget a.target b.target

mutual

/-- Equality of predicates, with values as in `Value.same` and entities by their types. -/
def same : Predicate → Predicate → Bool
  | .compare c o v, .compare d p w => c == d && o == p && v.same w
  | .between c o l h, .between d p k i => c == d && o == p && l.same k && h.same i
  | .among c o vs, .among d p ws => c == d && o == p && Value.sameItems vs ws
  | .negate a, .negate b => same a b
  | .junction c ps, .junction d qs => c = d && sameParts ps qs
  | .amongText c o t, .amongText d p u => c == d && o == p && t == u
  | .amongSelect c o s f, .amongSelect d p t g =>
    c == d && o == p && sameSelection s t && sameFilter f g
  | .raw t, .raw u => t == u
  | _, _ => false

def sameParts : List Predicate → List Predicate → Bool
  | [], [] => true
  | a :: as, b :: bs => same a b && sameParts as bs
  | _, _ => false

def sameFilter : Option Predicate → Option Predicate → Bool
  | none, none => true
  | some a, some b => same a b
  | _, _ => false

end

end Predicate

end Cql
