import SemanticQuery.Database.Cell
import SemanticQuery.Text.Blank

/-!
# Aggregates

The aggregates that SQLite lacks: the sample standard deviation, by Welford's recurrence, and the
discrete median. Both skip cells that are no numbers.
-/

namespace SemanticQuery.Aggregate

/-- The number that a cell stands for: integers, reals, and text that reads as a number. -/
def numeric? : Cell → Option Binary64
  | .integer value => some (Binary64.ofInt value)
  | .real value => some value
  | .text bytes => (Text.decode? bytes).bind fun text => Number.binary64? (Text.trim text)
  | .null | .blob _ => none

/-- The count, the mean and the sum of squared deviations of the numbers so far. -/
structure Moments where
  count : Nat
  mean : Float
  squares : Float

namespace Moments

def zero : Moments :=
  ⟨0, 0, 0⟩

def add (moments : Moments) (x : Binary64) : Moments :=
  let count := moments.count + 1
  let delta := x.toFloat - moments.mean
  let mean := moments.mean + delta / Float.ofNat count
  ⟨count, mean, moments.squares + delta * (x.toFloat - mean)⟩

/-- The sample standard deviation, which needs two numbers. -/
def deviation? (moments : Moments) : Option Binary64 :=
  if moments.count < 2 then none
  else some (.ofFloat (moments.squares / Float.ofNat (moments.count - 1)).sqrt)

end Moments

def deviation? (cells : List Cell) : Option Binary64 :=
  ((cells.filterMap numeric?).foldl Moments.add .zero).deviation?

def notAfter (x y : Binary64) : Bool :=
  x.totalKey ≤ y.totalKey

/-- The discrete median of numbers: in sorted order the last one of the lower half, the middle one
included. -/
def medianOf? (numbers : List Binary64) : Option Binary64 :=
  (numbers.mergeSort notAfter)[(numbers.length + 1) / 2 - 1]?

def median? (cells : List Cell) : Option Binary64 :=
  medianOf? (cells.filterMap numeric?)

/-- The value that an aggregate's result is stored and read as. -/
def resultValue (result : Option Binary64) : Value :=
  (Cell.ofValue ((result.map .float).getD .null)).toValue

end SemanticQuery.Aggregate
