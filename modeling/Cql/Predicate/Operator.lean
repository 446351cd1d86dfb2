import Cql.Predicate

/-!
Operators with their operands, and the predicate that each makes of a column.
-/

namespace Cql

inductive Operator
  | eq (v : Value)
  | ne (v : Value)
  | gt (v : Value)
  | ge (v : Value)
  | lt (v : Value)
  | le (v : Value)
  | like (v : Value)
  | contains (v : Value)
  | containsKey (v : Value)
  | among (vs : List Value)
  | notAmong (vs : List Value)
  | between (low high : Value)
  | notBetween (low high : Value)

namespace Operator

def predicate (column : String) : Operator → Predicate
  | .eq v => .compare column "=" v
  | .ne v => .compare column "!=" v
  | .gt v => .compare column ">" v
  | .ge v => .compare column ">=" v
  | .lt v => .compare column "<" v
  | .le v => .compare column "<=" v
  | .like v => .compare column "LIKE" v
  | .contains v => .compare column "CONTAINS" v
  | .containsKey v => .compare column "CONTAINS KEY" v
  | .among vs => .among column "IN" vs
  | .notAmong vs => .among column "NOT IN" vs
  | .between low high => .between column "BETWEEN" low high
  | .notBetween low high => .between column "NOT BETWEEN" low high

end Operator

end Cql
