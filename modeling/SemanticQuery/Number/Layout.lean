import SemanticQuery.Number.Shortest

/-!
# Written numbers

How a number is laid out as text. A layout says which decimal orders are written positionally and
whether a whole number keeps `.0`. SQL text uses `Layout.sql`; texts for people use
`Layout.plain`.
-/

namespace SemanticQuery

structure Layout where
  /-- The least and the greatest order of magnitude written positionally; without it all are. -/
  positional : Option (Int × Int)
  /-- Whether a positional whole number ends in `.0`. -/
  wholePoint : Bool

namespace Layout

/-- Positional from `1e-4` to below `1e16`, with at least one decimal. -/
def sql : Layout :=
  ⟨some (-4, 15), true⟩

/-- Always positional, and a whole number has no decimal point. -/
def plain : Layout :=
  ⟨none, false⟩

/-- Digits with the decimal point `exponent` places from their end. -/
def positionalText (wholePoint : Bool) (digits : List Char) (exponent : Int) : List Char :=
  if 0 ≤ exponent then
    digits ++ List.replicate exponent.toNat '0' ++ if wholePoint then ['.', '0'] else []
  else
    let places := (-exponent).toNat
    if places < digits.length then
      digits.take (digits.length - places) ++ '.' :: digits.drop (digits.length - places)
    else '0' :: '.' :: (List.replicate (places - digits.length) '0' ++ digits)

/-- One digit before the point and a power of ten. -/
def scientificText (digits : List Char) (order : Int) : List Char :=
  digits.take 1 ++ (if digits.length ≤ 1 then [] else '.' :: digits.drop 1) ++
    'e' :: order.repr.toList

def finiteText (layout : Layout) (decimal : Decimal) : List Char :=
  let digits := Nat.toDigits 10 decimal.digits
  let order := decimal.exponent + (digits.length : Int) - 1
  let positional := match layout.positional with
    | some range => decimal.digits = 0 || (range.1 ≤ order && order ≤ range.2)
    | none => true
  if positional then positionalText layout.wholePoint digits decimal.exponent
  else scientificText digits order

/-- The text of a number. Not-a-number has no sign. -/
def text (layout : Layout) (x : Binary64) : String :=
  if x.isNaN then "NaN"
  else
    let body := if x.isInfinite then "inf".toList else layout.finiteText (Decimal.shortest x)
    String.ofList (if x.isNegative then '-' :: body else body)

example : sql.text (Binary64.ofDecimal false 1 0) = "1.0" := by decide +kernel
example : sql.text (Binary64.ofDecimal false 1 (-4)) = "0.0001" := by decide +kernel
example : sql.text (Binary64.ofDecimal false 1 (-7)) = "1e-7" := by decide +kernel
example : sql.text (Binary64.ofDecimal true 15 299) = "-1.5e300" := by decide +kernel
example : sql.text (Binary64.ofDecimal true 0 0) = "-0.0" := by decide +kernel
example : sql.text (Binary64.ofDecimal false 1 16) = "1e16" := by decide +kernel
example : plain.text (Binary64.ofDecimal false 125 (-2)) = "1.25" := by decide +kernel
example : plain.text (Binary64.ofDecimal false 1 17) = "100000000000000000" := by decide +kernel

end Layout

end SemanticQuery
