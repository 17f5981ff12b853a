import Mathlib.Data.List.Basic
import SemanticQuery.Database.Aggregate

/-!
# The discrete median

The discrete median of some numbers is the least of them, in the total order, that at least half of
them do not exceed.  It depends on the numbers alone and not on their order, and cells that are no
numbers do not count.
-/

namespace SemanticQuery

/-- The key of the total order tells all numbers apart, the two zeros and all not-a-numbers too. -/
theorem Binary64.totalKey_injective : Function.Injective Binary64.totalKey := by
  intro x y same
  have bound : twoTo 63 = 9223372036854775808 := by decide
  have small (z : Binary64) : z.bits.toNat < 18446744073709551616 := z.bits.toNat_lt
  simp only [totalKey, isNegative, magnitude, bound, decide_eq_true_eq] at same
  have bits : x.bits.toNat = y.bits.toNat := by
    have smallX := small x
    have smallY := small y
    split at same <;> split at same <;> omega
  exact congrArg Binary64.mk (UInt64.toNat_inj.mp bits)

namespace Aggregate

variable {numbers others : List Binary64} {middle other : Binary64}

/-! ## Cells that are no numbers -/

def IsSkipped : Cell → Prop
  | .null | .blob _ => True
  | .text bytes => ∀ text, Text.decode? bytes = some text → Number.binary64? (Text.trim text) = none
  | .integer _ | .real _ => False

theorem numeric?_eq_none_iff {cell : Cell} : numeric? cell = none ↔ IsSkipped cell := by
  cases cell <;> simp [numeric?, IsSkipped]

/-! ## Ranks -/

/-- How many numbers come no later than a given one. -/
def rank (numbers : List Binary64) (bound : Binary64) : Nat :=
  numbers.countP (notAfter · bound)

/-- A number of a list is its discrete median if at least half of the numbers come no later, and fewer
than half come no later than any number before it. -/
structure IsDiscreteMedian (numbers : List Binary64) (middle : Binary64) : Prop where
  mem : middle ∈ numbers
  half : numbers.length ≤ 2 * rank numbers middle
  fewer : ∀ bound : Binary64, bound.totalKey < middle.totalKey → 2 * rank numbers bound < numbers.length

namespace IsDiscreteMedian

/-- It is enough that fewer than half of the numbers come before. -/
theorem of_before (mem : middle ∈ numbers) (half : numbers.length ≤ 2 * rank numbers middle)
    (before : 2 * numbers.countP (·.totalKey < middle.totalKey) < numbers.length) :
    IsDiscreteMedian numbers middle := by
  refine ⟨mem, half, fun bound less => ?_⟩
  have fewer : rank numbers bound ≤ numbers.countP (·.totalKey < middle.totalKey) := by
    refine List.countP_mono_left fun number _ notAfter => ?_
    simp only [Aggregate.notAfter, decide_eq_true_eq] at notAfter ⊢
    omega
  omega

theorem totalKey_le (isMiddle : IsDiscreteMedian numbers middle)
    (isOther : IsDiscreteMedian numbers other) : other.totalKey ≤ middle.totalKey := by
  by_contra later
  have few := isOther.fewer middle (Int.not_le.mp later)
  have many := isMiddle.half
  omega

/-- There is no more than one discrete median. -/
theorem eq (isMiddle : IsDiscreteMedian numbers middle) (isOther : IsDiscreteMedian numbers other) :
    middle = other :=
  Binary64.totalKey_injective
    (Int.le_antisymm (isOther.totalKey_le isMiddle) (isMiddle.totalKey_le isOther))

theorem perm (isMiddle : IsDiscreteMedian numbers middle) (perm : numbers.Perm others) :
    IsDiscreteMedian others middle where
  mem := perm.mem_iff.mp isMiddle.mem
  half := by
    rw [← perm.length_eq, rank, ← perm.countP_eq]
    exact isMiddle.half
  fewer := by
    intro bound less
    rw [← perm.length_eq, rank, ← perm.countP_eq]
    exact isMiddle.fewer bound less

end IsDiscreteMedian

/-! ## Sorted numbers -/

/-- In sorted order, all up to a position come no later than what stands there. -/
theorem lt_rank (sorted : numbers.Pairwise (notAfter · · = true)) {position : Nat}
    (inside : position < numbers.length) : position < rank numbers numbers[position] := by
  have upTo : (numbers.take (position + 1)).countP (notAfter · numbers[position]) = position + 1 := by
    rw [List.countP_eq_length.mpr, List.length_take_of_le inside]
    intro number member
    obtain ⟨earlier, isEarlier, rfl⟩ := List.mem_take_iff_getElem.mp member
    rcases Nat.lt_or_ge earlier position with less | atLeast
    · exact List.pairwise_iff_getElem.mp sorted earlier position _ _ less
    · obtain rfl : earlier = position := by omega
      simp [notAfter]
  have part : (numbers.take (position + 1)).countP (notAfter · numbers[position]) ≤
      rank numbers numbers[position] := (List.take_sublist (position + 1) numbers).countP_le
  omega

/-- In sorted order, what comes before the number at a position stands before it. -/
theorem countP_before_le (sorted : numbers.Pairwise (notAfter · · = true)) {position : Nat}
    (inside : position < numbers.length) :
    numbers.countP (·.totalKey < numbers[position].totalKey) ≤ position := by
  have onward :
      (numbers.drop position).countP (·.totalKey < numbers[position].totalKey) = 0 := by
    rw [List.countP_eq_zero]
    intro number member
    obtain ⟨later, isLater, rfl⟩ := List.mem_drop_iff_getElem.mp member
    rcases Nat.eq_zero_or_pos later with rfl | positive
    · simp
    · have ordered := List.pairwise_iff_getElem.mp sorted position (position + later) inside
        (by omega) (by omega)
      simpa [notAfter] using ordered
  have whole := congrArg (List.countP (·.totalKey < numbers[position].totalKey))
    (List.take_append_drop position numbers)
  rw [List.countP_append, onward, Nat.add_zero] at whole
  rw [← whole]
  exact Nat.le_trans List.countP_le_length (List.length_take_le _ _)

theorem pairwise_mergeSort (numbers : List Binary64) :
    (numbers.mergeSort notAfter).Pairwise (notAfter · · = true) := by
  refine List.pairwise_mergeSort (fun first second third => ?_) (fun first second => ?_) numbers
  · simp only [notAfter, decide_eq_true_eq]
    exact Int.le_trans
  · simp only [notAfter, Bool.or_eq_true, decide_eq_true_eq]
    exact Int.le_total _ _

/-- The position of the median among the sorted numbers is one of theirs. -/
theorem middle_lt_length (nonempty : numbers ≠ []) :
    (numbers.length + 1) / 2 - 1 < (numbers.mergeSort notAfter).length := by
  have positive := List.length_pos_of_ne_nil nonempty
  rw [List.length_mergeSort]
  omega

/-- What stands in the middle of the sorted numbers is their discrete median. -/
theorem isDiscreteMedian_middle
    (inside : (numbers.length + 1) / 2 - 1 < (numbers.mergeSort notAfter).length) :
    IsDiscreteMedian numbers (numbers.mergeSort notAfter)[(numbers.length + 1) / 2 - 1] := by
  have sorted := pairwise_mergeSort numbers
  have length : (numbers.mergeSort notAfter).length = numbers.length := List.length_mergeSort numbers
  refine IsDiscreteMedian.perm (.of_before (List.getElem_mem inside) ?_ ?_)
    (List.mergeSort_perm numbers notAfter)
  · have upTo := lt_rank sorted inside
    omega
  · have before := countP_before_le sorted inside
    omega

theorem medianOf?_eq_some_iff :
    medianOf? numbers = some middle ↔ IsDiscreteMedian numbers middle := by
  rw [medianOf?, List.getElem?_eq_some_iff]
  constructor
  · rintro ⟨inside, rfl⟩
    exact isDiscreteMedian_middle inside
  · intro isMiddle
    have inside := middle_lt_length (List.ne_nil_of_mem isMiddle.mem)
    exact ⟨inside, (isDiscreteMedian_middle inside).eq isMiddle⟩

/-- There is a median unless all cells are skipped.  It is found within the sorted numbers, it is the
discrete median of the cells' numbers and no other number is, and no order of the cells changes it. -/
theorem median?_exact (cells : List Cell) :
    (median? cells = none ↔ ∀ cell ∈ cells, IsSkipped cell) ∧
      (∀ numbers, cells.filterMap numeric? = numbers → numbers ≠ [] →
        ∃ inside : (numbers.length + 1) / 2 - 1 < (numbers.mergeSort notAfter).length,
          median? cells = some (numbers.mergeSort notAfter)[(numbers.length + 1) / 2 - 1]) ∧
      (∀ middle, median? cells = some middle ↔
        IsDiscreteMedian (cells.filterMap numeric?) middle) ∧
      ∀ others : List Cell, others.Perm cells → median? others = median? cells := by
  refine ⟨?_, ?_, fun middle => medianOf?_eq_some_iff, ?_⟩
  · have skipped : (∀ cell ∈ cells, IsSkipped cell) ↔ cells.filterMap numeric? = [] := by
      simp only [List.filterMap_eq_nil_iff, numeric?_eq_none_iff]
    rw [skipped, median?]
    constructor
    · intro none
      by_contra nonempty
      rw [medianOf?, List.getElem?_eq_getElem (middle_lt_length nonempty)] at none
      cases none
    · intro empty
      simp [empty, medianOf?]
  · rintro numbers rfl nonempty
    have inside := middle_lt_length nonempty
    exact ⟨inside, List.getElem?_eq_getElem inside⟩
  · intro others perm
    refine Option.ext fun middle => ?_
    rw [median?, median?, medianOf?_eq_some_iff, medianOf?_eq_some_iff]
    have views := perm.filterMap numeric?
    exact ⟨fun isMiddle => isMiddle.perm views, fun isMiddle => isMiddle.perm views.symm⟩

def mixedCells : List Cell :=
  [.integer 4, .null, .text [0x37], .real (Binary64.ofDecimal false 25 (-1)), .blob [0x31],
    .text [0x78], .integer (-3)]

/-- The lower one of the two numbers in the middle is the median, in either order of the cells. -/
theorem median?_exact_mixedCells :
    mixedCells.filterMap numeric? ≠ [] ∧ mixedCells.reverse.Perm mixedCells ∧
      median? mixedCells = some (Binary64.ofDecimal false 25 (-1)) ∧
      median? mixedCells.reverse = some (Binary64.ofDecimal false 25 (-1)) := by
  obtain ⟨-, -, exact, unordered⟩ := median?_exact mixedCells
  have isMiddle : IsDiscreteMedian (mixedCells.filterMap numeric?) (Binary64.ofDecimal false 25 (-1)) :=
    .of_before (by decide +kernel) (by decide +kernel) (by decide +kernel)
  have found := (exact _).mpr isMiddle
  have reversed := mixedCells.reverse_perm
  exact ⟨List.ne_nil_of_mem isMiddle.mem, reversed, found, (unordered _ reversed).trans found⟩

end Aggregate

end SemanticQuery
