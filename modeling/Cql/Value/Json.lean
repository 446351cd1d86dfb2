import Cql.Decimal.Layout
import Cql.Text.Json
import Cql.Value

/-!
Values as JSON text. The kind of a value is not written.
-/

namespace Cql.Value

open Text

/-- Numbers from `1e-5` on and below `1e16` are written with all places, others with an exponent.
What is no finite number is null. -/
def floatJson (x : Float) : List Char :=
  match Decimal.Binary.ofFloat x with
  | .finite negative 0 _ => Decimal.signed negative ['0', '.', '0']
  | .finite negative mantissa exponent =>
    let d := Decimal.shortest .even mantissa exponent
    Decimal.signed negative (if -5 ≤ d.order ∧ d.order < 16 then d.withPoint else d.scientific)
  | _ => ['n', 'u', 'l', 'l']

mutual

def json : Value → String
  | .null => "null"
  | .bool b => if b then "true" else "false"
  | .int i => toString i
  | .float x => String.ofList (floatJson x)
  | .text s => Json.string s
  | .uuid u => Json.string (String.ofList u.text)
  | .timestamp t => Json.string (String.ofList (t.text t.exactPlaces))
  | .blob bytes => Json.array (bytes.map fun b => toString b.toNat)
  | .list items => Json.array (jsonItems items)
  | .expr s => Json.string s

def jsonItems : List Value → List String
  | [] => []
  | v :: vs => json v :: jsonItems vs

end

end Cql.Value
