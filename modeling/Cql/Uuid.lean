import Cql.Text.Hex

/-!
Universally unique identifiers.
-/

namespace Cql

structure Uuid where
  bytes : Vector UInt8 16
  deriving DecidableEq, Repr

namespace Uuid

/-- Lower-case digits in groups of 8, 4, 4, 4 and 12. -/
def text (u : Uuid) : List Char :=
  let group := fun (start count : Nat) => Text.Hex.ofBytes ((u.bytes.toList.drop start).take count)
  group 0 4 ++ '-' :: group 4 2 ++ '-' :: group 6 2 ++ '-' :: group 8 2 ++ '-' :: group 10 6

/-- Reads 32 digits in either case; hyphens may stand anywhere. -/
def ofText? (cs : List Char) : Option Uuid := do
  let bytes ← Text.Hex.bytes? (cs.filter (· ≠ '-'))
  if h : bytes.toArray.size = 16 then return ⟨⟨bytes.toArray, h⟩⟩ else none

end Uuid

end Cql
