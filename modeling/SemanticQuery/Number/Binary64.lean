/-!
# Binary floating point numbers of 64 bits

A number is its bit pattern, so every zero and every not-a-number is a value of its own and
equality is decidable. A finite number is `significand * 2 ^ exponent` with a sign. Rounding a
quotient of natural numbers to the nearest number, a half to the even neighbour, is exact.
-/

namespace SemanticQuery

/-- A double precision number, by its bits: sign, 11 bits of exponent, 52 bits of fraction. -/
structure Binary64 where
  bits : UInt64
  deriving DecidableEq

namespace Binary64

def twoTo (exponent : Nat) : Nat :=
  Nat.pow 2 exponent

def tenTo (exponent : Nat) : Nat :=
  Nat.pow 10 exponent

def isNegative (x : Binary64) : Bool :=
  twoTo 63 ≤ x.bits.toNat

/-- The bits below the sign. They order the numbers of one sign by absolute value. -/
def magnitude (x : Binary64) : Nat :=
  x.bits.toNat % twoTo 63

def infinityMagnitude : Nat :=
  0x7FF * twoTo 52

def isNaN (x : Binary64) : Bool :=
  infinityMagnitude < x.magnitude

def isInfinite (x : Binary64) : Bool :=
  x.magnitude = infinityMagnitude

def isFinite (x : Binary64) : Bool :=
  x.magnitude < infinityMagnitude

def ofMagnitude (negative : Bool) (magnitude : Nat) : Binary64 :=
  ⟨UInt64.ofNat (magnitude % twoTo 63 + if negative then twoTo 63 else 0)⟩

/-- The integer factor of a finite number's absolute value. -/
def significand (x : Binary64) : Nat :=
  if x.magnitude / twoTo 52 = 0 then x.magnitude else x.magnitude % twoTo 52 + twoTo 52

/-- The power of two in a finite number's absolute value. -/
def exponent (x : Binary64) : Int :=
  (max (x.magnitude / twoTo 52) 1 : Nat) - 1075

/-- A key that orders all numbers: negative not-a-numbers first, then from negative infinity to
positive infinity with `-0.0` below `0.0`, then positive not-a-numbers. -/
def totalKey (x : Binary64) : Int :=
  if x.isNegative then -1 - (x.magnitude : Int) else x.magnitude

/-- The quotient of two natural numbers rounded to the nearest, a half to the even neighbour. -/
def roundedQuotient (numerator denominator : Nat) : Nat :=
  let quotient := numerator / denominator
  let remainder := numerator % denominator
  if 2 * remainder > denominator || (2 * remainder = denominator && quotient % 2 = 1) then
    quotient + 1
  else quotient

/-- The exponent of the greatest power of two that is at most a positive quotient. -/
def binaryExponent (numerator denominator : Nat) : Int :=
  let estimate : Int := (Nat.log2 numerator : Int) - (Nat.log2 denominator : Int)
  if numerator * twoTo (-estimate).toNat < denominator * twoTo estimate.toNat then estimate - 1
  else estimate

/-- The magnitude nearest to a quotient with a positive denominator; past the greatest finite
number it is infinity. -/
def nearestMagnitude (numerator denominator : Nat) : Nat :=
  if numerator = 0 then 0
  else
    let scale := max (binaryExponent numerator denominator - 52) (-1074)
    let rounded :=
      roundedQuotient (numerator * twoTo (-scale).toNat) (denominator * twoTo scale.toNat)
    min (rounded + (scale + 1074).toNat * twoTo 52) infinityMagnitude

/-- The number nearest to `digits * 10 ^ exponent`. Exponents that are out of reach for the number
of digits are settled without computing the power. -/
def ofDecimal (negative : Bool) (digits : Nat) (exponent : Int) : Binary64 :=
  let order : Int := (Nat.log2 digits : Int) / 4 + exponent
  let size : Int := (Nat.log2 digits : Int) / 3 + 1 + exponent
  ofMagnitude negative <|
    if digits = 0 then 0
    else if order > 310 then infinityMagnitude
    else if size < -330 then 0
    else nearestMagnitude (digits * tenTo exponent.toNat) (tenTo (-exponent).toNat)

def ofInt (value : Int) : Binary64 :=
  ofMagnitude (value < 0) (nearestMagnitude value.natAbs 1)

/-- The sign of a product or a quotient: negative if one of the two factors is. -/
def signsDiffer (x y : Binary64) : Bool :=
  x.isNegative != y.isNegative

/-- The number nearest to the product of two finite numbers. -/
def multiply (x y : Binary64) : Binary64 :=
  let exponent := x.exponent + y.exponent
  ofMagnitude (signsDiffer x y) <|
    nearestMagnitude (x.significand * y.significand * twoTo exponent.toNat)
      (twoTo (-exponent).toNat)

/-- The number nearest to the quotient of two finite numbers, of which the second is not zero. -/
def divide (x y : Binary64) : Binary64 :=
  let exponent := x.exponent - y.exponent
  ofMagnitude (signsDiffer x y) <|
    nearestMagnitude (x.significand * twoTo exponent.toNat)
      (y.significand * twoTo (-exponent).toNat)

def infinity (negative : Bool) : Binary64 :=
  ofMagnitude negative infinityMagnitude

def notANumber (negative : Bool) : Binary64 :=
  ofMagnitude negative (infinityMagnitude + twoTo 51)

def ofFloat (x : Float) : Binary64 :=
  ⟨x.toBits⟩

def toFloat (x : Binary64) : Float :=
  Float.ofBits x.bits

example : (ofDecimal false 5 (-324)).bits = 1 := by decide +kernel
example : (ofDecimal true 0 5).bits = 0x8000000000000000 := by decide +kernel
example : (ofDecimal false 1 (-1)).bits = 0x3FB999999999999A := by decide +kernel
example : (ofDecimal false 17976931348623159 292).isInfinite = true := by decide +kernel
example : (ofDecimal false 17976931348623157 292).isFinite = true := by decide +kernel
example : multiply (ofDecimal false 1 (-1)) (ofDecimal true 3 0) =
    ofDecimal true 30000000000000004 (-17) := by decide +kernel
example : divide (ofDecimal false 1 0) (ofDecimal false 3 0) =
    ofDecimal false 3333333333333333 (-16) := by decide +kernel

end Binary64

end SemanticQuery
