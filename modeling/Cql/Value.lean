import Cql.Instant
import Cql.Uuid

/-!
Values of a statement. Expressions are text of the language and are never bound as parameters of
their own.
-/

namespace Cql

inductive Value
  | null
  | bool (b : Bool)
  | int (i : Int)
  | float (x : Float)
  | text (s : String)
  | uuid (u : Uuid)
  | timestamp (t : Instant)
  | blob (bytes : List UInt8)
  | list (items : List Value)
  | expr (text : String)
  deriving Inhabited, Repr

namespace Value

def isExpr : Value → Bool
  | .expr _ => true
  | _ => false

mutual

/-- Equality of values. Floats are compared as numbers, so not-a-number differs from itself and
the two zeros are equal. -/
def same : Value → Value → Bool
  | .null, .null => true
  | .bool a, .bool b => a == b
  | .int a, .int b => a == b
  | .float a, .float b => a == b
  | .text a, .text b => a == b
  | .uuid a, .uuid b => a == b
  | .timestamp a, .timestamp b => a == b
  | .blob a, .blob b => a == b
  | .list as, .list bs => sameItems as bs
  | .expr a, .expr b => a == b
  | _, _ => false

def sameItems : List Value → List Value → Bool
  | [], [] => true
  | a :: as, b :: bs => same a b && sameItems as bs
  | _, _ => false

end

instance : BEq Value := ⟨same⟩

end Value

end Cql
