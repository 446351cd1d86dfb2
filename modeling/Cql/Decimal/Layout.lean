import Cql.Decimal.Shortest

/-!
Decimals as text, with or without an exponent.
-/

namespace Cql.Decimal

def digits (n : Nat) : List Char := Nat.toDigits 10 n

def zeros (n : Nat) : List Char := List.replicate n '0'

namespace Scaled

/-- The exponent of the first digit. -/
def order (d : Scaled) : Int := (digits d.significand).length - 1 + d.exponent

/-- All places written out, and a point only if digits follow it. -/
def positional (d : Scaled) : List Char :=
  let ds := digits d.significand
  let whole := d.order + 1
  if 0 ≤ d.exponent then ds ++ zeros d.exponent.toNat
  else if 0 < whole then ds.take whole.toNat ++ '.' :: ds.drop whole.toNat
  else '0' :: '.' :: zeros (-whole).toNat ++ ds

/-- As `positional`, with one place at least after the point. -/
def withPoint (d : Scaled) : List Char :=
  if 0 ≤ d.exponent then d.positional ++ ['.', '0'] else d.positional

/-- One digit, a point and more digits if there are any, and a signed exponent. -/
def scientific (d : Scaled) : List Char :=
  let mantissa := match digits d.significand with
    | [] => []
    | [c] => [c]
    | c :: cs => c :: '.' :: cs
  let sign := if d.order < 0 then '-' else '+'
  mantissa ++ 'e' :: sign :: digits d.order.natAbs

end Scaled

def signed (negative : Bool) (cs : List Char) : List Char := if negative then '-' :: cs else cs

/-- A number with all places written out; its digits are the fewest that read back. -/
def plain (infinity : String) (x : Float) : String :=
  String.ofList <| match Binary.ofFloat x with
    | .nan => ['N', 'a', 'N']
    | .infinite negative => signed negative infinity.toList
    | .finite negative 0 _ => signed negative ['0']
    | .finite negative mantissa exponent =>
      signed negative (shortest .up mantissa exponent).positional

end Cql.Decimal
