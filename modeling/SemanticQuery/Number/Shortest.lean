import SemanticQuery.Number.Binary64

/-!
# Shortest decimal digits

The decimal with the fewest digits that reads back as a given finite number. A number
`significand * 2 ^ exponent` owns the interval of reals that round to it, ends included when the
significand is even. For one, two, … digits the two neighbours of the number on that decimal grid
are tested in exact arithmetic; the first grid with a hit wins. Of two hits the nearer one is
taken, and at equal distance the greater.
-/

namespace SemanticQuery

/-- The decimal `digits * 10 ^ exponent`. -/
structure Decimal where
  digits : Nat
  exponent : Int
  deriving DecidableEq

namespace Decimal

open Binary64 (twoTo tenTo)

/-- The interval of reals that round to one number. All three points have the same positive
denominator. -/
structure Interval where
  low : Nat
  value : Nat
  high : Nat
  denominator : Nat
  /-- Whether both ends belong to the interval. -/
  closed : Bool

/-- The interval of a number with a positive significand. The gap below the least significand of
a binade is half as wide as the gap above it. -/
def Interval.of (x : Binary64) : Interval :=
  let significand := x.significand
  let exponent := x.exponent - 2
  let scale := twoTo exponent.toNat
  let below := if significand = twoTo 52 ∧ x.exponent > -1074 then 1 else 2
  { low := (4 * significand - below) * scale
    value := 4 * significand * scale
    high := (4 * significand + 2) * scale
    denominator := twoTo (-exponent).toNat
    closed := significand % 2 = 0 }

def length (n : Nat) : Nat :=
  (Nat.toDigits 10 n).length

/-- The least `k` such that the value is below `10 ^ k`. -/
def Interval.order (interval : Interval) : Int :=
  if interval.denominator ≤ interval.value then
    length (interval.value / interval.denominator)
  else
    let reach := length (interval.denominator / interval.value)
    if interval.denominator ≤ interval.value * tenTo (reach - 1) then 2 - (reach : Int)
    else 1 - (reach : Int)

def Interval.has (interval : Interval) (digits : Nat) (exponent : Int) : Bool :=
  let up := tenTo (-exponent).toNat
  let point := digits * tenTo exponent.toNat * interval.denominator
  if interval.closed then interval.low * up ≤ point && point ≤ interval.high * up
  else interval.low * up < point && point < interval.high * up

/-- The hit nearest to the value among its two neighbours on the grid of `10 ^ exponent`. -/
def Interval.hit? (interval : Interval) (exponent : Int) : Option Nat :=
  let up := tenTo (-exponent).toNat
  let step := tenTo exponent.toNat * interval.denominator
  let value := interval.value * up
  let below := value / step
  match interval.has below exponent, interval.has (below + 1) exponent with
  | true, true => some (if 2 * (value % step) < step then below else below + 1)
  | true, false => some below
  | false, true => some (below + 1)
  | false, false => none

/-- Searches grids of one more digit each; `remaining` grids are left after this one. -/
def Interval.search (interval : Interval) (order : Int) : Nat → Nat → Decimal
  | 0, count =>
      let exponent := order - count
      ⟨interval.value * tenTo (-exponent).toNat / (tenTo exponent.toNat * interval.denominator),
        exponent⟩
  | remaining + 1, count =>
      match interval.hit? (order - count) with
      | some digits => ⟨digits, order - count⟩
      | none => search interval order remaining (count + 1)

/-- Moves trailing zeros of the digits into the exponent. The first argument bounds their number. -/
def stripZeros : Nat → Decimal → Decimal
  | 0, decimal => decimal
  | bound + 1, decimal =>
      if decimal.digits ≠ 0 ∧ decimal.digits % 10 = 0 then
        stripZeros bound ⟨decimal.digits / 10, decimal.exponent + 1⟩
      else decimal

/-- The shortest decimal of a finite number's absolute value; zero is `0 * 10 ^ 0`. -/
def shortest (x : Binary64) : Decimal :=
  if x.significand = 0 then ⟨0, 0⟩
  else
    let interval := Interval.of x
    stripZeros 20 (interval.search interval.order 17 1)

example : shortest (Binary64.ofDecimal false 3 (-1)) = ⟨3, -1⟩ := by decide +kernel
example : shortest (Binary64.ofDecimal false 1 23) = ⟨1, 23⟩ := by decide +kernel
example : shortest ⟨1⟩ = ⟨5, -324⟩ := by decide +kernel
example : shortest ⟨2⟩ = ⟨1, -323⟩ := by decide +kernel
example : shortest (Binary64.ofDecimal false 17976931348623157 292) = ⟨17976931348623157, 292⟩ := by
  decide +kernel

end Decimal

end SemanticQuery
