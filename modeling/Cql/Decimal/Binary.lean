/-!
Floating-point numbers as a sign, a mantissa and a power of two, and rounding of fractions to the
nearest number of a binary format, a half to the even neighbour.
-/

namespace Cql.Decimal

inductive Binary
  | nan
  | infinite (negative : Bool)
  /-- The number `mantissa * 2 ^ exponent`, or its negative. -/
  | finite (negative : Bool) (mantissa : Nat) (exponent : Int)
  deriving DecidableEq, Repr

/-- The numbers of up to `precision` bits whose least bit is worth `2 ^ least` to `2 ^ greatest`. -/
structure Format where
  precision : Nat
  least : Int
  greatest : Int

def double : Format := ⟨53, -1074, 971⟩

def single : Format := ⟨24, -149, 104⟩

namespace Binary

def ofFloat (x : Float) : Binary :=
  let bits := x.toBits.toNat
  let negative := bits / Nat.pow 2 63 == 1
  let biased : Nat := bits / Nat.pow 2 52 % Nat.pow 2 11
  let fraction : Nat := bits % Nat.pow 2 52
  if biased = 2047 then
    if fraction = 0 then .infinite negative else .nan
  else if biased = 0 then .finite negative fraction (-1074)
  else .finite negative (Nat.pow 2 52 + fraction) ((biased : Int) - 1075)

def signBit (negative : Bool) : Nat := if negative then Nat.pow 2 63 else 0

/-- The double of a number that a double can hold. -/
def toFloat : Binary → Float
  | .nan => Float.ofBits (UInt64.ofNat (2047 * Nat.pow 2 52 + Nat.pow 2 51))
  | .infinite negative => Float.ofBits (UInt64.ofNat (signBit negative + 2047 * Nat.pow 2 52))
  | .finite negative 0 _ => Float.ofBits (UInt64.ofNat (signBit negative))
  | .finite negative mantissa exponent =>
    let shift := 52 - Nat.log2 mantissa
    let biased := exponent - shift + 1075
    let magnitude :=
      if 1 ≤ biased then
        biased.toNat * Nat.pow 2 52 + (mantissa * Nat.pow 2 shift - Nat.pow 2 52)
      else mantissa * Nat.pow 2 (exponent + 1074).toNat
    Float.ofBits (UInt64.ofNat (signBit negative + magnitude))

end Binary

/-- The quotient to the nearest integer, a half to the even one. -/
def roundDiv (num den : Nat) : Nat :=
  let q := num / den
  let r := num % den
  if 2 * r < den ∨ 2 * r = den ∧ q % 2 = 0 then q else q + 1

/-- The greatest `l` with `2 ^ l ≤ num / den`. -/
def floorLog2 (num den : Nat) : Int :=
  let l : Int := (Nat.log2 num : Int) - Nat.log2 den
  if den * Nat.pow 2 l.toNat ≤ num * Nat.pow 2 (-l).toNat then l else l - 1

/-- The number of the format that is nearest to `num / den`. -/
def Format.round (format : Format) (negative : Bool) (num den : Nat) : Binary :=
  if num = 0 then .finite negative 0 format.least
  else
    let exponent := max format.least (floorLog2 num den - format.precision + 1)
    let mantissa := roundDiv (num * Nat.pow 2 (-exponent).toNat) (den * Nat.pow 2 exponent.toNat)
    let (mantissa, exponent) :=
      if mantissa = Nat.pow 2 format.precision then (mantissa / 2, exponent + 1)
      else (mantissa, exponent)
    if format.greatest < exponent then .infinite negative
    else .finite negative mantissa exponent

end Cql.Decimal
