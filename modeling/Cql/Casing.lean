import Cql.Casing.Words

/-!
The case in which physical names are written. A name may be a path of segments with dots between
them; a segment that is not a plain identifier is left as it is.
-/

namespace Cql

inductive Casing
  | lowerUnderscore
  | upperUnderscore
  | lowerCamel
  deriving DecidableEq, Repr, Inhabited

namespace Casing

def all : List Casing := [.lowerUnderscore, .upperUnderscore, .lowerCamel]

def label : Casing → String
  | .lowerUnderscore => "LowerUnderscore"
  | .upperUnderscore => "UpperUnderscore"
  | .lowerCamel => "LowerCamel"

/-- A letter or an underscore, then letters, digits and underscores, all ASCII. -/
def isPlain : List Char → Bool
  | [] => false
  | c :: cs => (c == '_' || c.isAlpha) && cs.all fun d => d == '_' || d.isAlphanum

def writeWords : Casing → List (List Char) → List Char
  | .lowerUnderscore => Words.lowerSnake
  | .upperUnderscore => Words.upperSnake
  | .lowerCamel => Words.lowerCamel

def writeSegment (casing : Casing) (segment : List Char) : List Char :=
  if isPlain segment then casing.writeWords (Words.ofIdentifier segment) else segment

def writePath (casing : Casing) (path : List Char) : List Char :=
  Text.Split.join '.' ((Text.Split.splitWhere (· == '.') path).map casing.writeSegment)

/-- The physical name for a logical one. -/
def physical (casing : Casing) (logical : String) : String :=
  String.ofList (casing.writePath logical.toList)

/-- Under this casing the physical names are the logical ones. -/
def isLogical (casing : Casing) : Bool := casing = .lowerCamel

end Casing

end Cql
