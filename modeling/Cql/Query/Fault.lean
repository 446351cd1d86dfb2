import Cql.Token.Scan

/-!
What can be wrong with the placeholders of a statement.
-/

namespace Cql.Query

/-- The ways to write a placeholder. -/
inductive Dialect
  | mark
  | colon
  | braces
  deriving DecidableEq, Repr

def Dialect.sample : Dialect → String
  | .mark => "'?'"
  | .colon => "':name'"
  | .braces => "'#\x7bname\x7d'"

inductive Fault
  | mixed (first second : Dialect)
  | malformed (group : Token.Malformed)
  | unbound (name : String)
  deriving DecidableEq, Repr

def faultText : Token.Fault → String
  | .unclosed => "unterminated `#\x7b` group"
  | .unnamed => "empty `#\x7b\x7d` group"

def Fault.message : Fault → String
  | .mixed first second =>
    "Mixed placeholder syntax: found " ++ first.sample ++ " and " ++ second.sample ++
      " in the same statement"
  | .malformed m =>
    "Malformed placeholder at byte " ++ toString m.offset ++ ": " ++ faultText m.fault
  | .unbound name => "Missing value for parameter '" ++ name ++ "'"

end Cql.Query
