/-!
Points in time, counted from the start of 1970 in Coordinated Universal Time, and their text with
a date of the proleptic Gregorian calendar.
-/

namespace Cql

/-- Seconds since the start of 1970, and nanoseconds. A leap second has nanoseconds from one
billion on, in the second before it. -/
structure Instant where
  seconds : Int
  nanos : Nat
  deriving DecidableEq, Repr

namespace Instant

structure Date where
  year : Int
  month : Nat
  day : Nat
  deriving DecidableEq, Repr

/-- The date of a day since the start of 1970. Years count from March in cycles of 400, so that
the leap day is the last day of its year. -/
def dateOfDay (day : Int) : Date :=
  let shifted := day + 719468
  let era := shifted / 146097
  let dayOfEra := (shifted % 146097).toNat
  let yearOfEra := (dayOfEra - dayOfEra / 1460 + dayOfEra / 36524 - dayOfEra / 146096) / 365
  let dayOfYear := dayOfEra - (365 * yearOfEra + yearOfEra / 4 - yearOfEra / 100)
  let monthFromMarch := (5 * dayOfYear + 2) / 153
  let month := if monthFromMarch < 10 then monthFromMarch + 3 else monthFromMarch - 9
  { year := yearOfEra + era * 400 + (if month ≤ 2 then 1 else 0)
    month
    day := dayOfYear - (153 * monthFromMarch + 2) / 5 + 1 }

/-- The digits of a number, with zeros in front up to a width. -/
def padded (width n : Nat) : List Char :=
  let ds := Nat.toDigits 10 n
  List.replicate (width - ds.length) '0' ++ ds

/-- Four digits; a year that needs more or is before zero has a sign. -/
def yearText (year : Int) : List Char :=
  if 0 ≤ year ∧ year ≤ 9999 then padded 4 year.toNat
  else (if year < 0 then '-' else '+') :: padded 4 year.natAbs

/-- Nanoseconds in the second that is shown. -/
def subsecond (t : Instant) : Nat := t.nanos % 1000000000

/-- Date and time with some places of the second. -/
def text (t : Instant) (places : Nat) : List Char :=
  let date := dateOfDay (t.seconds / 86400)
  let second := (t.seconds % 86400).toNat
  let shown := second % 60 + t.nanos / 1000000000
  let fraction :=
    if places = 0 then []
    else '.' :: padded places (t.subsecond / Nat.pow 10 (9 - places))
  yearText date.year ++ '-' :: padded 2 date.month ++ '-' :: padded 2 date.day ++
    'T' :: padded 2 (second / 3600) ++ ':' :: padded 2 (second / 60 % 60) ++
    ':' :: padded 2 shown ++ fraction ++ ['Z']

/-- The fewest of 0, 3, 6 and 9 places that lose nothing. -/
def exactPlaces (t : Instant) : Nat :=
  if t.subsecond = 0 then 0
  else if t.subsecond % 1000000 = 0 then 3
  else if t.subsecond % 1000 = 0 then 6
  else 9

end Instant

end Cql
