import JvmPatch.Decimal.Binary

/-! The shortest decimal that reads back as a given binary number. A decimal reads back if it lies
in the interval of reals that round to the number; the ends belong to it iff the mantissa is even.
The decimals with a given last place form a grid, and the grids are tried from the coarsest one:
the first on which a neighbour of the number lies in the interval wins. -/

set_option autoImplicit false

namespace JvmPatch.Decimal

/-- The number `coefficient * 10 ^ exponent`. -/
structure Scientific where
  coefficient : Nat
  exponent : Int
  deriving DecidableEq, Repr

/-- The number of decimal digits, one for zero. -/
def digitCount (n : Nat) : Nat := (Nat.toDigits 10 n).length

/-- The interval of reals that round to a positive number, in units of `2 ^ unit`, with the number
itself. -/
structure Interval where
  low : Nat
  middle : Nat
  high : Nat
  unit : Int
  closed : Bool
  deriving DecidableEq, Repr

/-- Half of the distance to the neighbours on both sides. Below a power of two the numbers lie
twice as dense, except where the smallest exponent is reached. -/
def BinaryFormat.interval (f : BinaryFormat) (mantissa shift : Nat) : Interval where
  low := if mantissa = twoTo f.fractionBits ∧ 0 < shift then 4 * mantissa - 1 else 4 * mantissa - 2
  middle := 4 * mantissa
  high := 4 * mantissa + 2
  unit := f.minExponent + Int.ofNat shift - 2
  closed := mantissa % 2 == 0

/-- How many units of `10 ^ place` there are in `x` units of `2 ^ unit`, as a fraction. -/
def gridFraction (unit place : Int) (x : Nat) : Nat × Nat :=
  (x * twoTo unit.toNat * tenTo (-place).toNat, twoTo (-unit).toNat * tenTo place.toNat)

/-- Whether `k * 10 ^ place` lies in the interval. -/
def Interval.contains (i : Interval) (place : Int) (k : Nat) : Bool :=
  let low := gridFraction i.unit place i.low
  let high := gridFraction i.unit place i.high
  if i.closed then low.1 ≤ k * low.2 && k * high.2 ≤ high.1
  else low.1 < k * low.2 && k * high.2 < high.1

/-- The largest point of the grid that is not above the number. -/
def Interval.below (i : Interval) (place : Int) : Nat :=
  let f := gridFraction i.unit place i.middle
  f.1 / f.2

/-- Whether the point above the number is at least as near as the point below it. -/
def Interval.nearerAbove (i : Interval) (place : Int) : Bool :=
  let f := gridFraction i.unit place i.middle
  f.2 ≤ 2 * (f.1 % f.2)

/-- The point of the grid nearest to the number, of those in the interval. Of two that are equally
near the larger one is taken. -/
def Interval.hit? (i : Interval) (place : Int) : Option Nat :=
  let k := i.below place
  match i.contains place k, i.contains place (k + 1) with
  | true, true => some (if i.nearerAbove place then k + 1 else k)
  | true, false => some k
  | false, true => some (k + 1)
  | false, false => none

/-- Tries at most `tries` grids from `place` on, each ten times as fine as the one before. -/
def Interval.search (i : Interval) : Nat → Int → Scientific
  | 0, place => ⟨i.below place, place⟩
  | tries + 1, place =>
    match i.hit? place with
    | some k => ⟨k, place⟩
    | none => i.search tries (place - 1)

/-- The place of the leading digit of a positive number. -/
def Interval.leadingPlace (i : Interval) : Int :=
  let f := gridFraction i.unit 0 i.middle
  if f.2 ≤ f.1 then Int.ofNat (digitCount (f.1 / f.2)) - 1
  else -Int.ofNat (digitCount ((f.2 + f.1 - 1) / f.1 - 1))

/-- As many digits as always suffice. -/
def BinaryFormat.maxDigits (f : BinaryFormat) : Nat := 2 + (f.fractionBits + 1) * 30103 / 100000

/-- The same number with a coefficient that does not end in a zero. -/
def Scientific.normalize (d : Scientific) : Scientific :=
  let zeros := ((Nat.toDigits 10 d.coefficient).reverse.takeWhile (· == '0')).length
  if d.coefficient = 0 then d
  else ⟨d.coefficient / tenTo zeros, d.exponent + Int.ofNat zeros⟩

/-- The shortest decimal that reads back as a positive number. -/
def BinaryFormat.shortest (f : BinaryFormat) (mantissa shift : Nat) : Scientific :=
  let i := f.interval mantissa shift
  (i.search f.maxDigits i.leadingPlace).normalize

end JvmPatch.Decimal
