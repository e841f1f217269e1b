import NumericScript.Double.Parts

/-! # The shortest decimal that reads back

Every real in an interval around a double is rounded to that double when it is read.
`shortest` gives the decimal `digits · 10 ^ power` in this interval with the fewest digits,
and among those the nearest to the double, a tie going up.  It looks at the grids of the
multiples of `10 ^ power` from a coarse one to finer ones; on each grid only the two
neighbours of the double can be nearest to it, so only they are tried.  All arithmetic is on
natural numbers. -/

namespace NumericScript.Decimal

open Double

/-- A fraction and the ends of the interval around it, over one denominator. -/
structure Interval where
  /-- Numerator of the double itself. -/
  value : Nat
  /-- Numerator of the lower end. -/
  low : Nat
  /-- Numerator of the upper end. -/
  high : Nat
  /-- The common denominator. -/
  den : Nat
  /-- Whether the ends belong to the interval. -/
  closed : Bool

/-- The interval of reals that are rounded to `mantissa · 2 ^ exponent`.  Below a power of
two the doubles lie twice as close, so there the lower half is half as long; a tie goes to
the even mantissa. -/
def Interval.around (mantissa : Nat) (exponent : Int) : Interval :=
  let up := Nat.pow 2 (exponent - 2).toNat
  let below := if mantissa = Nat.pow 2 52 ∧ -1074 < exponent then 1 else 2
  { value := 4 * mantissa * up
    low := (4 * mantissa - below) * up
    high := (4 * mantissa + 2) * up
    den := Nat.pow 2 (2 - exponent).toNat
    closed := mantissa % 2 = 0 }

/-- The same interval, measured in units of `10 ^ power`. -/
def Interval.inUnits (i : Interval) (power : Int) : Interval :=
  let up := Nat.pow 10 (-power).toNat
  { value := i.value * up, low := i.low * up, high := i.high * up
    den := i.den * Nat.pow 10 power.toNat, closed := i.closed }

/-- Whether `n` units lie in the interval. -/
def Interval.contains (i : Interval) (n : Nat) : Bool :=
  if i.closed then i.low ≤ n * i.den && n * i.den ≤ i.high
  else i.low < n * i.den && n * i.den < i.high

/-- The count of units nearest to the double, if it or its other neighbour is in the
interval.  Of two that are equally near it is the greater. -/
def Interval.nearest? (i : Interval) : Option Nat :=
  let n := i.value / i.den
  match i.contains n, i.contains (n + 1) with
  | true, true => some (if i.value - n * i.den < (n + 1) * i.den - i.value then n else n + 1)
  | true, false => some n
  | false, true => some (n + 1)
  | false, false => none

/-- Every answer of `nearest?` lies in the interval. -/
theorem Interval.contains_of_nearest? {i : Interval} {n : Nat} (h : i.nearest? = some n) :
    i.contains n = true := by
  unfold nearest? at h
  simp only at h
  split at h
  · rename_i h₁ h₂
    split at h <;> cases h <;> assumption
  · cases h; assumption
  · cases h; assumption
  · cases h

/-- The first of `rounds` grids, from `10 ^ power` to finer ones, that meets the interval. -/
def search (i : Interval) : Nat → Int → Nat × Int
  | 0, power => ((i.inUnits power).value / (i.inUnits power).den, power)
  | rounds + 1, power =>
    match (i.inUnits power).nearest? with
    | some n => (n, power)
    | none => search i rounds (power - 1)

/-- The shortest decimal `(digits, power)` that reads back as `mantissa · 2 ^ exponent`, for
a mantissa above zero.  The grid that the search starts from is coarser than the number. -/
def shortest (mantissa : Nat) (exponent : Int) : Nat × Int :=
  search (Interval.around mantissa exponent) 24
    (((mantissa.log2 : Int) + exponent) * 30103 / 100000 + 2)

end NumericScript.Decimal
