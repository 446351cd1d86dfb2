/-!
Values with serial numbers, which tell apart two makings of equal values.
-/

namespace Cql

structure Stamped (α : Type) where
  serial : Nat
  value : α
  deriving DecidableEq, Repr

end Cql
