import Cql.Casing
import Cql.Grammar

/-!
What the library notes for an operator while it works.
-/

namespace Cql

inductive Event
  | manyHeld (held threshold : UInt64)
  | bufferDropped (pooled : Nat)
  | columnsResolved (typeName : String) (casing : Casing) (columns : Nat)
  | propertiesResolved (typeName : String) (select insert update : Nat)
  | cacheMissed (size : Nat)
  | cacheSwept (removed : Nat)
  | rendered (operation : Operation) (text : String) (parameters : Nat)
  deriving DecidableEq, Repr

namespace Event

inductive Level
  | warn
  | debug
  | trace
  deriving DecidableEq, Repr

/-- The part of the library that notes the event. -/
inductive Topic
  | pool
  | naming
  | parse
  | builder
  deriving DecidableEq, Repr

def level : Event → Level
  | .manyHeld .. => .warn
  | .rendered .. => .trace
  | _ => .debug

def topic : Event → Topic
  | .manyHeld .. | .bufferDropped .. => .pool
  | .columnsResolved .. | .propertiesResolved .. => .naming
  | .cacheMissed .. | .cacheSwept .. => .parse
  | .rendered .. => .builder

def message : Event → String
  | .manyHeld .. =>
    "open statement builders exceed threshold; builders may be leaking without render"
  | .bufferDropped .. => "pool full, dropping buffer"
  | .columnsResolved .. => "column map resolved"
  | .propertiesResolved .. => "eligible properties resolved"
  | .cacheMissed .. => "parse cache miss"
  | .cacheSwept .. => "parse cache sweep"
  | .rendered .. => "statement rendered"

end Event

end Cql
