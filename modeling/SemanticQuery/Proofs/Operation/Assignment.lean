import Mathlib.Algebra.BigOperators.Group.Finset.Basic
import Mathlib.Algebra.Order.BigOperators.Group.Finset
import SemanticQuery.Proofs.Operation.Width
import SemanticQuery.Proofs.Outcome

/-!
# How arguments are assigned to groups

Groups take their shares of the arguments one after another.  A share is computed from what is left and
from what the later groups need, and it is never more than what is left.  If the number of arguments
lies in the bounds of the groups, the shares add up to it, each lies in the bounds of its group, and a
group that could take more leaves the later groups their least numbers.  There is only one assignment
of this kind.

A sum of least numbers that does not fit into a word bounds nothing, so the number of arguments is
compared with the checked sum.  If it is no less, then no sum that the assignment takes wraps around.
-/

namespace SemanticQuery

namespace ArgumentGroup

def IsProper (group : ArgumentGroup) : Prop :=
  ∀ most ∈ group.upper, group.lower ≤ most

instance (group : ArgumentGroup) : Decidable group.IsProper :=
  inferInstanceAs (Decidable (∀ most ∈ group.upper, group.lower ≤ most))

variable {group : ArgumentGroup} {groups rest : List ArgumentGroup}

/-! ## What one group takes -/

theorem take_of_unbounded (unbounded : group.upper = none) (reserved remaining : UInt64) :
    (group.take reserved remaining).toNat =
      Max.max (remaining.toNat - reserved.toNat) (Min.min group.lower remaining.toNat) := by
  rw [toNat_take, unbounded]
  rfl

theorem take_of_bounded {most : Nat} (bounded : group.upper = some most) (reserved remaining : UInt64) :
    (group.take reserved remaining).toNat =
      Max.max (Min.min (remaining.toNat - reserved.toNat) most)
        (Min.min group.lower remaining.toNat) := by
  rw [toNat_take, bounded]
  rfl

/-- A group takes no more than what is left, whatever its bounds. -/
theorem take_le (group : ArgumentGroup) (reserved remaining : UInt64) :
    group.take reserved remaining ≤ remaining := by
  rw [UInt64.le_iff_toNat_le]
  cases bound : group.upper with
  | none =>
      rw [take_of_unbounded bound]
      omega
  | some most =>
      rw [take_of_bounded bound]
      omega

theorem toNat_sub_take (group : ArgumentGroup) (reserved remaining : UInt64) :
    (remaining - group.take reserved remaining).toNat =
      remaining.toNat - (group.take reserved remaining).toNat :=
  UInt64.toNat_sub_of_le _ _ (take_le group reserved remaining)

theorem least_le_take {reserved remaining : UInt64} (enough : group.lower ≤ remaining.toNat) :
    group.lower ≤ (group.take reserved remaining).toNat := by
  cases bound : group.upper with
  | none =>
      rw [take_of_unbounded bound]
      omega
  | some most =>
      rw [take_of_bounded bound]
      omega

/-- When there is enough for the least numbers, a group takes all it can or leaves the others only what
is reserved for them. -/
theorem take_cases (proper : group.IsProper) (reserved remaining : UInt64)
    (enough : group.lower + reserved.toNat ≤ remaining.toNat) :
    group.upper = some (group.take reserved remaining).toNat ∧
        (group.take reserved remaining).toNat + reserved.toNat ≤ remaining.toNat ∨
      (∀ most ∈ group.upper, (group.take reserved remaining).toNat ≤ most) ∧
        (group.take reserved remaining).toNat + reserved.toNat = remaining.toNat := by
  cases bound : group.upper with
  | none =>
      rw [take_of_unbounded bound]
      exact .inr ⟨nofun, by omega⟩
  | some most =>
      have fits : group.lower ≤ most := proper most bound
      rw [take_of_bounded bound]
      rcases Nat.le_total most (remaining.toNat - reserved.toNat) with full | free
      · refine .inl ⟨congrArg some ?_, ?_⟩ <;> omega
      · refine .inr ⟨?_, by omega⟩
        rintro other ⟨⟩
        omega

/-! ## Failures of an assignment -/

theorem subtract?_take (group : ArgumentGroup) (reserved remaining : UInt64) :
    Arithmetic.subtract? remaining (group.take reserved remaining) =
      .ok (remaining - group.take reserved remaining) :=
  if_pos (take_le group reserved remaining)

theorem assignFrom?_cons {mode : Arithmetic} (sum : mode.minOf? rest = .ok (minOf rest))
    (index : Nat) (group : ArgumentGroup) (remaining : UInt64) :
    mode.assignFrom? index (group :: rest) remaining =
      (mode.assignFrom? (index + 1) rest (remaining - group.take (minOf rest) remaining)).map
        (List.replicate (group.take (minOf rest) remaining).toNat index ++ ·) := by
  rw [Arithmetic.assignFrom?, sum]
  dsimp only [bind, Except.bind]
  rw [subtract?_take]
  rfl

/-- Without a sum that is rejected, an assignment does not fail. -/
theorem assignFrom?_eq {mode : Arithmetic} (accepted : ¬ mode.Rejects (lowerSum groups))
    (index : Nat) (remaining : UInt64) :
    mode.assignFrom? index groups remaining = .ok (assignFrom index groups remaining) := by
  induction groups generalizing index remaining with
  | nil => rfl
  | cons group rest ih =>
      have later : ¬ mode.Rejects (lowerSum rest) := fun rejected =>
        accepted (rejected.mono (by rw [lowerSum_cons]; exact Nat.le_add_left _ _))
      have sum : mode.minOf? rest = .ok (minOf rest) := by rw [mode.minOf?_eq, if_neg later]
      rw [assignFrom?_cons sum, ih later]
      rfl

/-- An assignment fails by a sum that does not fit, and never by a difference. -/
theorem assignFrom?_ne_underflow (mode : Arithmetic) (index : Nat) (groups : List ArgumentGroup)
    (remaining : UInt64) : mode.assignFrom? index groups remaining ≠ .error .underflow := by
  induction groups generalizing index remaining with
  | nil => nofun
  | cons group rest ih =>
      by_cases rejected : mode.Rejects (lowerSum rest)
      · rw [Arithmetic.assignFrom?, mode.minOf?_eq, if_pos rejected]
        nofun
      · have sum : mode.minOf? rest = .ok (minOf rest) := by rw [mode.minOf?_eq, if_neg rejected]
        rw [assignFrom?_cons sum]
        intro failed
        exact ih _ _ (map_eq_error_iff.mp failed)

/-! ## Shares -/

def shares : List ArgumentGroup → UInt64 → List Nat
  | [], _ => []
  | group :: rest, remaining =>
      let taken := group.take (minOf rest) remaining
      taken.toNat :: shares rest (remaining - taken)

/-- Shares of groups that are filled in order.  Each lies in the bounds of its group, and a group that
could take more leaves the later ones their least numbers. -/
inductive FillInOrder : List ArgumentGroup → List Nat → Prop where
  | nil : FillInOrder [] []
  | cons {group : ArgumentGroup} {rest : List ArgumentGroup} {share : Nat} {others : List Nat}
      (least : group.lower ≤ share) (most : ∀ most ∈ group.upper, share ≤ most)
      (full : group.upper = some share ∨ others = rest.map lower) (later : FillInOrder rest others) :
      FillInOrder (group :: rest) (share :: others)

theorem lowerSum_le_of_mem_upperSum (proper : ∀ group ∈ groups, group.IsProper) :
    ∀ most ∈ upperSum groups, lowerSum groups ≤ most := by
  induction groups with
  | nil => exact fun most _ => Nat.zero_le most
  | cons group rest ih =>
      obtain ⟨own, others⟩ := List.forall_mem_cons.mp proper
      intro most bounded
      obtain ⟨ownMost, othersMost, ownBound, later, rfl⟩ := upperSum_cons_eq_some_iff.mp bounded
      rw [lowerSum_cons]
      exact Nat.add_le_add (own ownMost ownBound) (ih others othersMost later)

/-- When there is just enough for the least numbers, each group takes its least number. -/
theorem shares_of_lowerSum (proper : ∀ group ∈ groups, group.IsProper) {count : UInt64}
    (enough : lowerSum groups = count.toNat) : shares groups count = groups.map lower := by
  induction groups generalizing count with
  | nil => rfl
  | cons group rest ih =>
      obtain ⟨own, others⟩ := List.forall_mem_cons.mp proper
      rw [lowerSum_cons] at enough
      have reserved : (minOf rest).toNat = lowerSum rest :=
        toNat_minOf_of_le count (by omega)
      have atLeast : group.lower ≤ (group.take (minOf rest) count).toNat := least_le_take (by omega)
      have taken : (group.take (minOf rest) count).toNat = group.lower := by
        rcases take_cases own (minOf rest) count (by omega) with
          ⟨-, left⟩ | ⟨-, left⟩ <;> omega
      have left := toNat_sub_take group (minOf rest) count
      simp only [shares, taken, List.map_cons]
      rw [ih others (by omega)]

theorem fillInOrder_shares (proper : ∀ group ∈ groups, group.IsProper) {count : UInt64}
    (enough : lowerSum groups ≤ count.toNat) (most : ∀ most ∈ upperSum groups, count.toNat ≤ most) :
    FillInOrder groups (shares groups count) ∧ (shares groups count).sum = count.toNat := by
  induction groups generalizing count with
  | nil => exact ⟨.nil, (Nat.le_zero.mp (most 0 rfl)).symm⟩
  | cons group rest ih =>
      obtain ⟨own, others⟩ := List.forall_mem_cons.mp proper
      rw [lowerSum_cons] at enough
      have reserved : (minOf rest).toNat = lowerSum rest :=
        toNat_minOf_of_le count (by omega)
      have atLeast : group.lower ≤ (group.take (minOf rest) count).toNat := least_le_take (by omega)
      have within := UInt64.le_iff_toNat_le.mp (take_le group (minOf rest) count)
      have remaining := toNat_sub_take group (minOf rest) count
      simp only [shares, List.sum_cons]
      rcases take_cases own (minOf rest) count (by omega) with
        ⟨full, left⟩ | ⟨atMost, left⟩
      · have othersMost : ∀ most ∈ upperSum rest,
            (count - group.take (minOf rest) count).toNat ≤ most := by
          intro othersMost bound
          have upper := most _ (upperSum_cons_eq_some_iff.mpr ⟨_, othersMost, full, bound, rfl⟩)
          omega
        have later := ih others (by omega) othersMost
        refine ⟨.cons atLeast ?_ (.inl full) later.1, by omega⟩
        rw [full]
        rintro most ⟨⟩
        exact Nat.le_refl _
      · -- The later groups are left with just what they need.
        have left : lowerSum rest = (count - group.take (minOf rest) count).toNat := by omega
        have later := ih others (Nat.le_of_eq left) (left ▸ lowerSum_le_of_mem_upperSum others)
        exact ⟨.cons atLeast atMost (.inr (shares_of_lowerSum others left)) later.1, by omega⟩

namespace FillInOrder

variable {given : List Nat}

theorem length_eq (fill : FillInOrder groups given) : given.length = groups.length := by
  induction fill with
  | nil => rfl
  | cons _ _ _ _ ih => rw [List.length_cons, List.length_cons, ih]

theorem bounds (fill : FillInOrder groups given) {index : Nat} (found : groups[index]? = some group) :
    group.lower ≤ given[index]?.getD 0 ∧ ∀ most ∈ group.upper, given[index]?.getD 0 ≤ most := by
  induction fill generalizing index with
  | nil => cases found
  | cons least most _ _ ih =>
      cases index with
      | zero =>
          cases found
          exact ⟨least, most⟩
      | succ index => exact ih found

theorem least_of_lt (fill : FillInOrder groups given) {index later : Nat} {other : ArgumentGroup}
    (found : groups[index]? = some group)
    (free : ∀ most ∈ group.upper, given[index]?.getD 0 < most) (behind : index < later)
    (otherFound : groups[later]? = some other) : given[later]?.getD 0 = other.lower := by
  induction fill generalizing index later with
  | nil => cases found
  | @cons first rest share others _ _ full _ ih =>
      obtain ⟨later, rfl⟩ := Nat.exists_eq_add_one.mpr (Nat.zero_lt_of_lt behind)
      cases index with
      | zero =>
          cases found
          rcases full with full | rfl
          · exact absurd (free share full) (Nat.lt_irrefl _)
          · rw [List.getElem?_cons_succ] at otherFound ⊢
            rw [List.getElem?_map, otherFound]
            rfl
      | succ index => exact ih found free (Nat.lt_of_succ_lt_succ behind) otherFound

end FillInOrder

/-! ## From shares to positions -/

/-- Each index as often as its share tells, for shares counted from an index. -/
def spread (index : Nat) : List Nat → List Nat
  | [] => []
  | share :: others => List.replicate share index ++ spread (index + 1) others

theorem assignFrom_eq_spread (index : Nat) (groups : List ArgumentGroup) (remaining : UInt64) :
    assignFrom index groups remaining = spread index (shares groups remaining) := by
  induction groups generalizing index remaining with
  | nil => rfl
  | cons group rest ih => simp only [assignFrom, shares, spread, ih]

section Spread

variable {first index : Nat} {given : List Nat}

theorem length_spread (first : Nat) (given : List Nat) : (spread first given).length = given.sum := by
  induction given generalizing first with
  | nil => rfl
  | cons share others ih =>
      rw [spread, List.length_append, List.length_replicate, ih, List.sum_cons]

theorem bounds_of_mem_spread (member : index ∈ spread first given) :
    first ≤ index ∧ index < first + given.length := by
  induction given generalizing first with
  | nil => cases member
  | cons share others ih =>
      rw [List.length_cons]
      rcases List.mem_append.mp member with own | later
      · rw [List.eq_of_mem_replicate own]
        omega
      · have bounds := ih later
        omega

theorem pairwise_spread (first : Nat) (given : List Nat) :
    (spread first given).Pairwise (· ≤ ·) := by
  induction given generalizing first with
  | nil => exact .nil
  | cons share others ih =>
      refine List.pairwise_append.mpr ⟨List.pairwise_replicate.mpr (.inr (Nat.le_refl _)), ih _, ?_⟩
      intro own isOwn other later
      rw [List.eq_of_mem_replicate isOwn]
      exact Nat.le_of_succ_le (bounds_of_mem_spread later).1

theorem count_spread (first index : Nat) (given : List Nat) :
    (spread first given).count (first + index) = given[index]?.getD 0 := by
  induction given generalizing first index with
  | nil => rfl
  | cons share others ih =>
      rw [spread, List.count_append]
      cases index with
      | zero =>
          have absent : first ∉ spread (first + 1) others :=
            fun member => Nat.not_succ_le_self _ (bounds_of_mem_spread member).1
          rw [Nat.add_zero, List.count_replicate_self, List.count_eq_zero.mpr absent]
          rfl
      | succ index =>
          have shifted : first + (index + 1) = first + 1 + index := by omega
          have other : ¬ first = first + 1 + index := by omega
          rw [shifted, List.count_replicate, if_neg (by simpa using other), Nat.zero_add, ih]
          rfl

end Spread

/-! ## Assignments -/

/-- A number of arguments is assigned to groups in order. -/
structure IsAssignment (groups : List ArgumentGroup) (count : Nat) (assigned : List Nat) : Prop where
  length : assigned.length = count
  nondecreasing : assigned.Pairwise (· ≤ ·)
  /-- Arguments are assigned to groups that exist. -/
  indices : ∀ index ∈ assigned, index < groups.length
  /-- A group gets no fewer than its least and no more than its greatest number of arguments. -/
  bounds : ∀ index group, groups[index]? = some group →
    group.lower ≤ assigned.count index ∧ ∀ most ∈ group.upper, assigned.count index ≤ most
  /-- A group that could take more leaves the later ones their least numbers. -/
  inOrder : ∀ index group, groups[index]? = some group →
    (∀ most ∈ group.upper, assigned.count index < most) →
    ∀ later other, index < later → groups[later]? = some other → assigned.count later = other.lower

theorem isAssignment_assign (proper : ∀ group ∈ groups, group.IsProper) {count : UInt64}
    (enough : lowerSum groups ≤ count.toNat) (most : ∀ most ∈ upperSum groups, count.toNat ≤ most) :
    IsAssignment groups count.toNat (assign groups count) := by
  obtain ⟨fill, sum⟩ := fillInOrder_shares proper enough most
  have share (index : Nat) :
      (assign groups count).count index = (shares groups count)[index]?.getD 0 := by
    have counted := count_spread 0 index (shares groups count)
    rwa [Nat.zero_add, ← assignFrom_eq_spread] at counted
  have same : assign groups count = spread 0 (shares groups count) :=
    assignFrom_eq_spread 0 groups count
  refine ⟨?_, same ▸ pairwise_spread _ _, ?_, ?_, ?_⟩
  · rw [same, length_spread, sum]
  · intro index member
    rw [same] at member
    have inside := (bounds_of_mem_spread member).2
    rwa [Nat.zero_add, fill.length_eq] at inside
  · intro index group found
    rw [share]
    exact fill.bounds found
  · intro index group found free later other behind otherFound
    rw [share] at free ⊢
    exact fill.least_of_lt found free behind otherFound

namespace IsAssignment

variable {count : Nat} {assigned others : List Nat}

theorem sum_count (is : IsAssignment groups count assigned) :
    ∑ index ∈ Finset.range groups.length, assigned.count index = count := by
  have inside : ∀ index ∈ (assigned : Multiset Nat), index ∈ Finset.range groups.length :=
    fun index member => Finset.mem_range.mpr (is.indices index (Multiset.mem_coe.mp member))
  have total := Multiset.sum_count_eq_card inside
  simp only [Multiset.coe_count, Multiset.coe_card, is.length] at total
  exact total

theorem count_eq_zero (is : IsAssignment groups count assigned) {index : Nat}
    (beyond : groups.length ≤ index) : assigned.count index = 0 :=
  List.count_eq_zero.mpr fun member => Nat.not_lt.mpr beyond (is.indices index member)

/-- No group gets more in another assignment that agrees on the groups before it: the later ones get
their least numbers in the first assignment, so the numbers would not add up. -/
theorem count_le (first : IsAssignment groups count assigned)
    (second : IsAssignment groups count others) {index : Nat}
    (agree : ∀ earlier < index, assigned.count earlier = others.count earlier) :
    others.count index ≤ assigned.count index := by
  by_contra more
  rw [Nat.not_le] at more
  have exists_group {position : Nat} (inside : position < groups.length) :
      ∃ group, groups[position]? = some group := ⟨_, List.getElem?_eq_getElem inside⟩
  have inside : index < groups.length := by
    by_contra beyond
    rw [second.count_eq_zero (Nat.not_lt.mp beyond)] at more
    exact Nat.not_lt_zero _ more
  obtain ⟨group, found⟩ := exists_group inside
  have free : ∀ most ∈ group.upper, assigned.count index < most := fun most bound =>
    Nat.lt_of_lt_of_le more ((second.bounds index group found).2 most bound)
  have atMost : ∀ position ∈ Finset.range groups.length,
      assigned.count position ≤ others.count position := by
    intro position listed
    rcases Nat.lt_trichotomy position index with before | rfl | behind
    · exact Nat.le_of_eq (agree position before)
    · exact Nat.le_of_lt more
    · obtain ⟨other, otherFound⟩ := exists_group (Finset.mem_range.mp listed)
      rw [first.inOrder index group found free position other behind otherFound]
      exact (second.bounds position other otherFound).1
  have smaller := Finset.sum_lt_sum atMost ⟨index, Finset.mem_range.mpr inside, more⟩
  rw [first.sum_count, second.sum_count] at smaller
  exact Nat.lt_irrefl _ smaller

theorem count_eq (first : IsAssignment groups count assigned)
    (second : IsAssignment groups count others) (index : Nat) :
    assigned.count index = others.count index := by
  induction index using Nat.strongRecOn with
  | ind index agree =>
      exact Nat.le_antisymm
        (second.count_le first fun earlier before => (agree earlier before).symm)
        (first.count_le second agree)

/-- There is only one assignment. -/
theorem unique (first : IsAssignment groups count assigned)
    (second : IsAssignment groups count others) : assigned = others :=
  (List.perm_iff_count.mpr (first.count_eq second)).eq_of_pairwise
    (fun _ _ _ _ => Nat.le_antisymm) first.nondecreasing second.nondecreasing

end IsAssignment

/-- A sum of greatest numbers that the number of arguments does not exceed where it fits is no bound
where it does not. -/
theorem le_of_mem_upperSum {count : UInt64}
    (most : ∀ most, Arithmetic.checked.maxOf? groups = .ok (some most) → count ≤ most) :
    ∀ most ∈ upperSum groups, count.toNat ≤ most := by
  intro sum bounded
  rcases Nat.lt_or_ge sum UInt64.size with fits | large
  · obtain ⟨word, run, value⟩ := Arithmetic.exists_maxFrom? 0 bounded (by simpa using fits)
    rw [UInt64.toNat_zero, Nat.zero_add] at value
    exact value ▸ UInt64.le_iff_toNat_le.mp (most word run)
  · exact Nat.le_trans (Nat.le_of_lt count.toNat_lt_size) large

def mixedGroups : List ArgumentGroup :=
  [⟨1, some 2, []⟩, upTo 1 [], orMore 2 [], ⟨1, some 3, []⟩, upTo 2 []]

/-- Least numbers that do not fit together leave no sum to compare with. -/
example : Arithmetic.checked.minOf? [orMore 18446744073709551615 [], orMore 1 []] =
    .error .overflow := by
  decide +kernel

end ArgumentGroup

namespace Operation

open ArgumentGroup

theorem isProper_of_mem_groups (operation : Operation) :
    ∀ group ∈ operation.descriptor.groups, group.IsProper := by
  cases operation <;> decide +kernel

/-- The bounds of no operation wrap around. -/
theorem sums_descriptor (operation : Operation) :
    lowerSum operation.descriptor.groups = operation.minArguments ∧
      upperSum operation.descriptor.groups = operation.maxArguments := by
  cases operation <;> decide +kernel

/-- Every number of arguments that an operation accepts is assigned to its groups in order. -/
theorem isAssignment_of_bounds {operation : Operation} {count : UInt64}
    (enough : operation.minArguments ≤ count.toNat)
    (most : ∀ most ∈ operation.maxArguments, count.toNat ≤ most) :
    IsAssignment operation.descriptor.groups count.toNat
      (assign operation.descriptor.groups count) := by
  obtain ⟨lower, upper⟩ := operation.sums_descriptor
  exact isAssignment_assign operation.isProper_of_mem_groups (lower ▸ enough) (upper ▸ most)

end Operation

end SemanticQuery
