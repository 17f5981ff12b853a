import Mathlib.Data.UInt
import SemanticQuery.Operation.Descriptor

/-!
# Bounds of groups as words

A sum of bounds that does not fit into a word wraps around, or is a failure where arithmetic is
checked.  The sums over the natural numbers tell the two apart: a checked sum fails just if the natural
one does not fit, and both agree with it otherwise.  A difference below zero is a failure either way.
-/

namespace SemanticQuery

namespace ArgumentGroup

variable {group : ArgumentGroup} {groups rest : List ArgumentGroup}

/-! ## Natural bounds -/

def lower (group : ArgumentGroup) : Nat :=
  group.min.toNat

def upper (group : ArgumentGroup) : Option Nat :=
  group.max.map UInt64.toNat

def lowerSum (groups : List ArgumentGroup) : Nat :=
  (groups.map lower).sum

/-- There is no sum if one of the groups is unbounded. -/
def upperSum : List ArgumentGroup → Option Nat
  | [] => some 0
  | group :: rest =>
      match group.upper, upperSum rest with
      | some own, some others => some (own + others)
      | _, _ => none

@[simp] theorem lowerSum_nil : lowerSum [] = 0 := rfl

@[simp] theorem lowerSum_cons (group : ArgumentGroup) (rest : List ArgumentGroup) :
    lowerSum (group :: rest) = group.lower + lowerSum rest := by
  rw [lowerSum, List.map_cons, List.sum_cons, lowerSum]

theorem toNat_minOf (fits : lowerSum groups < UInt64.size) : (minOf groups).toNat = lowerSum groups := by
  induction groups with
  | nil => rfl
  | cons group rest ih =>
      rw [lowerSum_cons] at fits
      rw [minOf, UInt64.toNat_add, ih (by omega), lowerSum_cons]
      exact Nat.mod_eq_of_lt fits

/-- No sum over groups wraps around if there are enough arguments for them. -/
theorem toNat_minOf_of_le (count : UInt64) (enough : lowerSum groups ≤ count.toNat) :
    (minOf groups).toNat = lowerSum groups :=
  toNat_minOf (Nat.lt_of_le_of_lt enough count.toNat_lt)

theorem upperSum_cons_eq_some_iff {sum : Nat} :
    upperSum (group :: rest) = some sum ↔
      ∃ own others, group.upper = some own ∧ upperSum rest = some others ∧ own + others = sum := by
  rw [upperSum]
  cases group.upper with
  | none => simp
  | some own => cases upperSum rest <;> simp

/-- What one group takes, in natural numbers. -/
theorem toNat_take (group : ArgumentGroup) (reserved remaining : UInt64) :
    (group.take reserved remaining).toNat =
      Max.max ((group.upper.map (Min.min (remaining.toNat - reserved.toNat))).getD
        (remaining.toNat - reserved.toNat)) (Min.min group.lower remaining.toNat) := by
  have available : (if reserved ≤ remaining then remaining - reserved else 0).toNat =
      remaining.toNat - reserved.toNat := by
    split
    · rename_i enough
      exact UInt64.toNat_sub_of_le _ _ enough
    · rename_i scarce
      exact (Nat.sub_eq_zero_of_le (Nat.le_of_not_le scarce)).symm
  unfold take upper lower
  cases group.max with
  | none => simp only [UInt64.toNat_max, UInt64.toNat_min, available, Option.map_none, Option.getD_none]
  | some bound =>
      simp only [UInt64.toNat_max, UInt64.toNat_min, available, Option.map_some, Option.getD_some]

/-! ## Arithmetic that can fail -/

/-- What becomes of a sum that does not fit into a word. -/
inductive Arithmetic where
  | checked
  | wrapping
  deriving DecidableEq

inductive Fault where
  | overflow
  | underflow
  deriving DecidableEq

namespace Arithmetic

def Rejects (mode : Arithmetic) (sum : Nat) : Prop :=
  mode = .checked ∧ UInt64.size ≤ sum

instance (mode : Arithmetic) (sum : Nat) : Decidable (mode.Rejects sum) :=
  inferInstanceAs (Decidable (_ ∧ _))

def add? (mode : Arithmetic) (a b : UInt64) : Except Fault UInt64 :=
  if mode.Rejects (a.toNat + b.toNat) then .error .overflow else .ok (a + b)

/-- The least number of arguments, summed from the first group on. -/
def minFrom? (mode : Arithmetic) (total : UInt64) : List ArgumentGroup → Except Fault UInt64
  | [] => .ok total
  | group :: rest => do mode.minFrom? (← mode.add? total group.min) rest

def minOf? (mode : Arithmetic) (groups : List ArgumentGroup) : Except Fault UInt64 :=
  mode.minFrom? 0 groups

/-- The greatest number of arguments, summed from the first group on. The sum ends at the first group
that is unbounded. -/
def maxFrom? (mode : Arithmetic) (total : UInt64) : List ArgumentGroup → Except Fault (Option UInt64)
  | [] => .ok (some total)
  | group :: rest =>
      match group.max with
      | none => .ok none
      | some bound => do mode.maxFrom? (← mode.add? total bound) rest

def maxOf? (mode : Arithmetic) (groups : List ArgumentGroup) : Except Fault (Option UInt64) :=
  mode.maxFrom? 0 groups

def subtract? (a b : UInt64) : Except Fault UInt64 :=
  if b ≤ a then .ok (a - b) else .error .underflow

/-- The assignment with its failures: a sum of the least numbers of later groups that does not fit, and
a group that takes more than what is left. -/
def assignFrom? (mode : Arithmetic) (index : Nat) :
    List ArgumentGroup → UInt64 → Except Fault (List Nat)
  | [], _ => .ok []
  | group :: rest, remaining => do
      let reserved ← mode.minOf? rest
      let taken := group.take reserved remaining
      let left ← subtract? remaining taken
      return List.replicate taken.toNat index ++ (← mode.assignFrom? (index + 1) rest left)

def assign? (mode : Arithmetic) (groups : List ArgumentGroup) (count : UInt64) :
    Except Fault (List Nat) :=
  mode.assignFrom? 0 groups count

variable {mode : Arithmetic} {total : UInt64}

@[simp] theorem not_rejects_wrapping (sum : Nat) : ¬ wrapping.Rejects sum :=
  nofun

@[simp] theorem rejects_checked_iff (sum : Nat) : checked.Rejects sum ↔ UInt64.size ≤ sum :=
  and_iff_right rfl

theorem Rejects.mono {smaller larger : Nat} (rejected : mode.Rejects smaller)
    (smaller_le : smaller ≤ larger) : mode.Rejects larger :=
  ⟨rejected.1, Nat.le_trans rejected.2 smaller_le⟩

theorem toNat_add_of_not_rejects {a b : UInt64} (accepted : ¬ checked.Rejects (a.toNat + b.toNat)) :
    (a + b).toNat = a.toNat + b.toNat := by
  rw [rejects_checked_iff, Nat.not_le] at accepted
  rw [UInt64.toNat_add, Nat.mod_eq_of_lt accepted]

/-- A sum over groups fails or not as the natural sum tells. -/
theorem minFrom?_eq (mode : Arithmetic) (total : UInt64) (groups : List ArgumentGroup) :
    mode.minFrom? total groups =
      if mode.Rejects (total.toNat + lowerSum groups) then .error .overflow
      else .ok (total + minOf groups) := by
  induction groups generalizing total with
  | nil =>
      have fits : ¬ mode.Rejects (total.toNat + lowerSum []) := fun rejected =>
        Nat.not_lt.mpr rejected.2 total.toNat_lt
      rw [if_neg fits, minFrom?, minOf, UInt64.add_zero]
  | cons group rest ih =>
      rw [minFrom?, add?]
      by_cases rejected : mode.Rejects (total.toNat + group.min.toNat)
      · rw [if_pos rejected, if_pos (rejected.mono (by rw [lowerSum_cons, lower]; omega))]
        rfl
      · rw [if_neg rejected]
        change mode.minFrom? (total + group.min) rest = _
        rw [ih, minOf, UInt64.add_assoc]
        cases mode with
        | wrapping => simp
        | checked => rw [toNat_add_of_not_rejects rejected, lowerSum_cons, lower, Nat.add_assoc]

theorem minOf?_eq (mode : Arithmetic) (groups : List ArgumentGroup) :
    mode.minOf? groups =
      if mode.Rejects (lowerSum groups) then .error .overflow else .ok (minOf groups) := by
  have whole := mode.minFrom?_eq 0 groups
  rwa [UInt64.toNat_zero, Nat.zero_add, UInt64.zero_add] at whole

theorem maxFrom?_wrapping (total : UInt64) (groups : List ArgumentGroup) :
    wrapping.maxFrom? total groups = .ok ((maxOf groups).map (total + ·)) := by
  induction groups generalizing total with
  | nil => rw [maxFrom?, maxOf, Option.map_some, UInt64.add_zero]
  | cons group rest ih =>
      rw [maxFrom?, maxOf]
      cases group.max with
      | none => rfl
      | some bound =>
          change wrapping.maxFrom? (total + bound) rest = _
          rw [ih]
          cases maxOf rest with
          | none => rfl
          | some others => simp [UInt64.add_assoc]

theorem maxOf?_wrapping (groups : List ArgumentGroup) : wrapping.maxOf? groups = .ok (maxOf groups) := by
  rw [maxOf?, maxFrom?_wrapping]
  cases maxOf groups with
  | none => rfl
  | some most => rw [Option.map_some, UInt64.zero_add]

/-- A natural sum of greatest numbers that fits is the checked one. -/
theorem exists_maxFrom? (total : UInt64) {sum : Nat} (bounded : upperSum groups = some sum)
    (fits : total.toNat + sum < UInt64.size) :
    ∃ word, checked.maxFrom? total groups = .ok (some word) ∧ word.toNat = total.toNat + sum := by
  induction groups generalizing total sum with
  | nil =>
      cases bounded
      exact ⟨total, rfl, rfl⟩
  | cons group rest ih =>
      obtain ⟨own, others, ownBound, later, rfl⟩ := upperSum_cons_eq_some_iff.mp bounded
      obtain ⟨word, bound, rfl⟩ := Option.map_eq_some_iff.mp ownBound
      have accepted : ¬ checked.Rejects (total.toNat + word.toNat) := by
        rw [rejects_checked_iff]
        omega
      have sum := toNat_add_of_not_rejects accepted
      obtain ⟨result, run, value⟩ := ih (total + word) later (by omega)
      refine ⟨result, ?_, by omega⟩
      simp only [maxFrom?, bound, add?, if_neg accepted]
      exact run

end Arithmetic

end ArgumentGroup

end SemanticQuery
