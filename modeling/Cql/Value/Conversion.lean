import Cql.Decimal.Reading
import Cql.Value

/-!
Values of plain data.
-/

namespace Cql.Value

def ofOption {α : Type} (ofData : α → Value) : Option α → Value
  | none => .null
  | some a => ofData a

def ofList {α : Type} (ofData : α → Value) (items : List α) : Value := .list (items.map ofData)

/-- The float that a text denotes, at the precision of a format. -/
def ofDecimal? (format : Decimal.Format) (text : String) : Option Value :=
  (Decimal.read? format text).map fun b => .float b.toFloat

end Cql.Value
