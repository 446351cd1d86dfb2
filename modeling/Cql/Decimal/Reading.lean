import Cql.Decimal.Binary

/-!
Reading numbers: a sign, digits with or without a point, and an exponent; or the words for
infinity and for no number, in any case.
-/

namespace Cql.Decimal

def digitsValue (cs : List Char) : Nat := cs.foldl (fun n c => 10 * n + (c.toNat - 48)) 0

/-- A sign, if there is one: whether it is a minus, and the rest. -/
def cutSign : List Char → Bool × List Char
  | '-' :: cs => (true, cs)
  | '+' :: cs => (false, cs)
  | cs => (false, cs)

/-- An exponent and its letter, or nothing, up to the end of the text. -/
def exponent? : List Char → Option Int
  | [] => some 0
  | c :: cs =>
    if c = 'e' ∨ c = 'E' then
      let (negative, ds) := cutSign cs
      if ds ≠ [] ∧ ds.all Char.isDigit then
        some (if negative then -digitsValue ds else digitsValue ds)
      else none
    else none

/-- The nearest number of the format to `significand * 10 ^ exponent`. Far outside the format it
is infinity or zero, which needs no powers. -/
def Format.ofDecimal (format : Format) (negative : Bool) (significand : Nat) (exponent : Int) :
    Binary :=
  let order : Int := (Nat.toDigits 10 significand).length + exponent
  if significand = 0 ∨ order < -400 then .finite negative 0 format.least
  else if 400 < order then .infinite negative
  else
    format.round negative (significand * Nat.pow 10 exponent.toNat)
      (Nat.pow 10 (-exponent).toNat)

def readDigits (format : Format) (negative : Bool) (cs : List Char) : Option Binary :=
  let whole := cs.takeWhile Char.isDigit
  let rest := cs.dropWhile Char.isDigit
  let (places, rest) := match rest with
    | '.' :: ds => (ds.takeWhile Char.isDigit, ds.dropWhile Char.isDigit)
    | _ => ([], rest)
  if whole = [] ∧ places = [] then none
  else (exponent? rest).map fun e =>
    format.ofDecimal negative (digitsValue (whole ++ places)) (e - places.length)

/-- The number of the format that a text denotes. -/
def read? (format : Format) (text : String) : Option Binary :=
  let (negative, cs) := cutSign text.toList
  let word := String.ofList (cs.map Char.toLower)
  if word = "nan" then some .nan
  else if word = "inf" ∨ word = "infinity" then some (.infinite negative)
  else readDigits format negative cs

end Cql.Decimal
