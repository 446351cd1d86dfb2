import Cql.Decimal.Binary

/-!
The shortest decimal that reads back as a given number: a point of the coarsest grid of powers of
ten that meets the interval of reals which round to the number. Of two such points the nearer one
is taken.
-/

namespace Cql.Decimal

/-- The decimal `significand * 10 ^ exponent`. -/
structure Scaled where
  significand : Nat
  exponent : Int
  deriving DecidableEq, Repr

/-- Where a number goes that lies halfway between two points of the grid. -/
inductive Tie
  | up
  | even
  deriving DecidableEq, Repr

/-- The interval that rounds to `mantissa * 2 ^ exponent`, in quarters of the unit
`2 ^ exponent`. Its ends belong to it if the mantissa is even. -/
structure Interval where
  low : Nat
  middle : Nat
  high : Nat
  closed : Bool

/-- Below a power of two the next number is half as far as above it. -/
def Interval.around (mantissa : Nat) (exponent : Int) : Interval where
  low := if mantissa = Nat.pow 2 52 ∧ -1074 < exponent then 4 * mantissa - 1 else 4 * mantissa - 2
  middle := 4 * mantissa
  high := 4 * mantissa + 2
  closed := mantissa % 2 = 0

/-- The point of the grid `10 ^ k` that stands for the interval, whose unit is
`2 ^ exponent / 4`. -/
def gridPoint? (tie : Tie) (i : Interval) (exponent k : Int) : Option Nat :=
  let unit := Nat.pow 2 (exponent - 2).toNat * Nat.pow 10 (-k).toNat
  let step := Nat.pow 2 (2 - exponent).toNat * Nat.pow 10 k.toNat
  let below := i.middle * unit / step
  let above := below + 1
  let inside := fun a b => if i.closed then decide (a ≤ b) else decide (a < b)
  let belowFits := inside (i.low * unit) (below * step)
  let aboveFits := inside (above * step) (i.high * unit)
  let twice := 2 * (i.middle * unit % step)
  let nearer :=
    if twice < step then below
    else if step < twice then above
    else match tie with
      | .up => above
      | .even => if below % 2 = 0 then below else above
  match belowFits, aboveFits with
  | true, true => some nearer
  | true, false => some below
  | false, true => some above
  | false, false => none

/-- The exponents of ten from the greatest double down to the least. -/
def gridExponents : List Int := (List.range 634).map fun (i : Nat) => 309 - (i : Int)

/-- The shortest decimal of `mantissa * 2 ^ exponent`, which is not zero. -/
def shortest (tie : Tie) (mantissa : Nat) (exponent : Int) : Scaled :=
  let i := Interval.around mantissa exponent
  let found := gridExponents.findSome? fun k =>
    (gridPoint? tie i exponent k).map fun significand => ⟨significand, k⟩
  found.getD ⟨0, 0⟩

end Cql.Decimal
