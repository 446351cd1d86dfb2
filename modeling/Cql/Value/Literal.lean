import Cql.Decimal.Layout
import Cql.Text.Quoted
import Cql.Value

/-!
Values as literals of the language. An expression is its own text.
-/

namespace Cql.Value

def intText (i : Int) : List Char := Decimal.signed (i < 0) (Decimal.digits i.natAbs)

def quoted (cs : List Char) : List Char := Text.Quoted.encode '\'' cs

mutual

def literalChars : Value → List Char
  | .null => ['n', 'u', 'l', 'l']
  | .bool true => ['t', 'r', 'u', 'e']
  | .bool false => ['f', 'a', 'l', 's', 'e']
  | .int i => intText i
  | .float x => (Decimal.plain "Infinity" x).toList
  | .text s => quoted s.toList
  | .uuid u => u.text
  | .timestamp t => quoted (t.text 3)
  | .blob bytes => '0' :: 'x' :: Text.Hex.ofBytes bytes
  | .list items => '[' :: itemChars items ++ [']']
  | .expr s => s.toList

/-- Items with a comma and a space between them. -/
def itemChars : List Value → List Char
  | [] => []
  | [v] => literalChars v
  | v :: w :: vs => literalChars v ++ ',' :: ' ' :: itemChars (w :: vs)

end

def literal (v : Value) : String := String.ofList v.literalChars

end Cql.Value
