import Mathlib.Data.List.Basic
import SemanticQuery.Operation.Compile
import SemanticQuery.Operation.Descriptor

/-!
# The numbers of operands

An analysis compiles from one operand, a correlation from two, and from no other number.  Predicates
and arithmetic compile from every number of operands that a step of theirs may have.
-/

namespace SemanticQuery.Operation

open Sql

variable {operation : Operation} {dialect : Dialect} {operands : List Expr}

def analysedCount : Operation → Nat
  | .correlation => 2
  | _ => 1

/-- An outcome that succeeds for one number of operands and reports every other one. -/
def Demands (operation : Operation) (operands : List Expr) (count : Nat)
    (outcome : Except Error Expr) : Prop :=
  (operands.length = count ∧ ∃ result, outcome = .ok result) ∨
    (operands.length ≠ count ∧ outcome = .error (operation.wrongCount operands count))

theorem demands_withOne (build : Expr → Expr) :
    operation.Demands operands 1 (operation.withOne operands build) := by
  unfold withOne
  split
  · exact .inl ⟨rfl, _, rfl⟩
  · rename_i other
    refine .inr ⟨?_, rfl⟩
    intro single
    obtain ⟨operand, rfl⟩ := List.length_eq_one_iff.mp single
    exact other operand rfl

theorem demands_withTwo (build : Expr → Expr → Expr) :
    operation.Demands operands 2 (operation.withTwo operands build) := by
  unfold withTwo
  split
  · exact .inl ⟨rfl, _, rfl⟩
  · rename_i other
    refine .inr ⟨?_, rfl⟩
    intro pair
    obtain ⟨left, right, rfl⟩ := List.length_eq_two.mp pair
    exact other left right rfl

theorem Demands.exists_ok {count : Nat} {outcome : Except Error Expr}
    (demands : operation.Demands operands count outcome) (fits : operands.length = count) :
    ∃ result, outcome = .ok result := by
  rcases demands with ⟨-, succeeds⟩ | ⟨differs, -⟩
  · exact succeeds
  · exact absurd fits differs

/-- An analysis compiles from the values it is about and from no other number of operands. -/
theorem demands_of_analysis (category : operation.category = .analysis) :
    operation.Demands operands operation.analysedCount (operation.compile dialect operands) := by
  cases operation with
  | average | count | countUnique | maximum | minimum | getOne | sum | concatenation =>
      exact demands_withOne _
  | median | deviation => cases dialect <;> exact demands_withOne _
  | correlation => exact demands_withTwo _
  | _ => cases category

theorem exists_folded {operator : Operator} (filled : operands ≠ []) :
    ∃ result, operation.folded operator operands = .ok result := by
  cases operands with
  | nil => exact absurd rfl filled
  | cons first rest => exact ⟨_, rfl⟩

theorem exists_connected {connective : Connective} (filled : operands ≠ []) :
    ∃ result, operation.connected connective operands = .ok result := by
  cases operands with
  | nil => exact absurd rfl filled
  | cons first rest => cases rest <;> exact ⟨_, rfl⟩

/-- A predicate or an arithmetic operation compiles from every number of operands that it accepts as
arguments. -/
theorem exists_compile_of_bounds
    (category : operation.category = .predicate ∨ operation.category = .arithmetic)
    (least : operation.minArguments ≤ operands.length)
    (most : ∀ count ∈ operation.maxArguments, operands.length ≤ count) :
    ∃ result, operation.compile dialect operands = .ok result := by
  have filled (positive : 0 < operation.minArguments) : operands ≠ [] :=
    List.length_pos_iff.mp (Nat.lt_of_lt_of_le positive least)
  have exactly {count : Nat} (fixed : operation.minArguments = count)
      (bounded : operation.maxArguments = some count) : operands.length = count :=
    Nat.le_antisymm (most count bounded) (fixed ▸ least)
  cases operation with
  | equals | lessThan | atMost | greaterThan | atLeast | contains | percentChange | duration =>
      exact (demands_withTwo _).exists_ok (exactly rfl rfl)
  | negation | squareRoot | absolute => exact (demands_withOne _).exists_ok (exactly rfl rfl)
  | conjunction | disjunction => exact exists_connected (filled (by decide))
  | add | subtract | multiply => exact exists_folded (filled (by decide))
  | divide | percentage =>
      obtain ⟨left, right, rfl⟩ := List.length_eq_two.mp (exactly rfl rfl)
      exact ⟨_, rfl⟩
  | _ => rcases category with impossible | impossible <;> cases impossible

end SemanticQuery.Operation
