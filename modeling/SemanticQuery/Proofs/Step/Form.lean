import Mathlib.Data.List.Basic
import SemanticQuery.Proofs.Step.Canonical

/-!
# The forms of accepted steps

The checks on the number and the shape of a step's arguments leave each operation one form.  All that
is later taken from the arguments by position is there, and every direction of a sort can be read.
-/

namespace SemanticQuery

/-- Arguments that give the keys of a sort, each with a direction that can be read. -/
inductive Argument.AreKeys : List Argument → List (StepRef × Direction) → Prop where
  | nil : AreKeys [] []
  | cons {rest : List Argument} {keys : List (StepRef × Direction)} (target : StepRef)
      (word : Literal) {direction : Direction}
      (isRead : Direction.ofText? word.content = some direction) (others : AreKeys rest keys) :
      AreKeys (.reference target :: .literal word :: rest) ((target, direction) :: keys)

namespace Step

def isListing : Operation → Bool
  | .collect | .groupBy | .output => true
  | _ => false

def isApplied (operation : Operation) : Bool :=
  match operation.category with
  | .predicate | .arithmetic | .analysis => true
  | _ => false

inductive HasForm : Operation → List Argument → Prop where
  | entity (name : Literal) : HasForm .retrieveEntity [.literal name]
  | retrieval (target : StepRef) (name : Argument) :
      HasForm .retrieveAttribute [.reference target, name]
  | listing {operation : Operation} (isListing : isListing operation = true) (first : StepRef)
      (rest : List StepRef) : HasForm operation ((first :: rest).map .reference)
  | sort {arguments : List Argument} {keys : List (StepRef × Direction)}
      (areKeys : Argument.AreKeys arguments keys) : HasForm .sort arguments
  | limit (count : Literal) : HasForm .limit [.literal count]
  | rowNumber (target : StepRef) : HasForm .rowNumber [.reference target]
  | applied {operation : Operation} {arguments : List Argument}
      (isApplied : isApplied operation = true) : HasForm operation arguments

/-- A step that lists steps has no other arguments. -/
theorem HasForm.arguments_eq {operation : Operation} {arguments : List Argument}
    (form : HasForm operation arguments) (lists : isListing operation = true) :
    arguments = (arguments.filterMap Argument.reference?).map .reference := by
  cases form with
  | entity | retrieval | sort | limit | rowNumber => cases lists
  | listing _ first rest =>
      simp [List.filterMap_map, Function.comp_def, Argument.reference?]
  | applied applies =>
      have noListing : isListing operation = false := by
        revert applies
        cases operation <;> decide
      rw [noListing] at lists
      cases lists

theorem HasForm.exists_retrieval {step : Step} (form : HasForm step.operation step.arguments)
    (retrieval : step.operation = .retrieveAttribute) :
    ∃ target name, step.arguments = [.reference target, name] := by
  rw [retrieval] at form
  generalize step.arguments = arguments at form
  cases form with
  | retrieval target name => exact ⟨target, name, rfl⟩
  | listing impossible | applied impossible => cases impossible

/-! ## Numbers of arguments -/

/-- The number of arguments of an accepted step lies in the bounds of its operation. -/
theorem IsCanonical.length_bounds {step : Step} (canonical : step.IsCanonical) :
    step.operation.minArguments ≤ step.arguments.length ∧
      ∀ most ∈ step.operation.maxArguments, step.arguments.length ≤ most := by
  have arity := canonical.arity
  unfold checkArity at arity
  dsimp only at arity
  split at arity
  · cases arity
  · rename_i accepted
    rw [Bool.or_eq_true, not_or, decide_eq_true_eq, Nat.not_lt, Option.any_eq_true] at accepted
    refine ⟨accepted.1, ?_⟩
    intro most isMost
    exact Nat.le_of_not_lt fun more => accepted.2 ⟨most, isMost, decide_eq_true more⟩

theorem IsCanonical.length_eq {step : Step} (canonical : step.IsCanonical) {count : Nat}
    (least : step.operation.minArguments = count)
    (most : step.operation.maxArguments = some count) : step.arguments.length = count := by
  obtain ⟨lower, upper⟩ := canonical.length_bounds
  exact Nat.le_antisymm (upper count most) (least ▸ lower)

/-! ## Shapes of arguments -/

theorem map_reference_filterMap {arguments : List Argument}
    (only : ∀ a ∈ arguments, a.reference?.isNone = false) :
    (arguments.filterMap Argument.reference?).map .reference = arguments := by
  induction arguments with
  | nil => rfl
  | cons argument rest ih =>
      cases argument with
      | literal value => cases only _ List.mem_cons_self
      | reference target =>
          have others := ih fun other member => only other (List.mem_cons_of_mem _ member)
          simp [Argument.reference?, others]

theorem map_references_of_checkReferencesOnly {step : Step}
    (checked : step.checkReferencesOnly = .ok ()) :
    step.arguments = step.references.map .reference := by
  unfold checkReferencesOnly at checked
  split at checked
  · cases checked
  · rename_i only
    exact (map_reference_filterMap (List.findIdx?_eq_none_iff.mp only)).symm

/-- The checks at even and odd positions give keys and directions in turn. -/
theorem areKeys_of_sortProblem? {arguments : List Argument} (start : Nat) (even : start % 2 = 0)
    (paired : arguments.length % 2 = 0)
    (accepted : ∀ item ∈ arguments.zipIdx start, sortProblem? item.2 item.1 = none) :
    ∃ keys, Argument.AreKeys arguments keys := by
  match arguments with
  | [] => exact ⟨[], .nil⟩
  | [_] => simp at paired
  | key :: direction :: rest =>
      have odd : (start + 1) % 2 ≠ 0 := by omega
      have keyOk := accepted (key, start) (by simp)
      have directionOk := accepted (direction, start + 1) (by simp)
      have restOk : ∃ keys, Argument.AreKeys rest keys := by
        refine areKeys_of_sortProblem? (start + 2) (by omega) ?_ ?_
        · simp only [List.length_cons] at paired
          omega
        · intro item member
          exact accepted item (by simp [member])
      obtain ⟨keys, others⟩ := restOk
      simp only [sortProblem?, even, odd, if_true, if_false] at keyOk directionOk
      cases key with
      | literal value => cases keyOk
      | reference target =>
          cases direction with
          | reference other => cases directionOk
          | literal word =>
              simp only [Argument.literal?, Option.bind_some] at directionOk
              split at directionOk
              · rename_i found isRead
                exact ⟨_, .cons target word isRead others⟩
              · cases directionOk

theorem areKeys_of_checkSort {step : Step} (checked : step.checkSort = .ok ()) :
    ∃ keys, Argument.AreKeys step.arguments keys := by
  unfold checkSort at checked
  split at checked
  · cases checked
  · rename_i paired
    split at checked
    · cases checked
    · rename_i accepted
      rw [List.findSome?_eq_none_iff] at accepted
      refine areKeys_of_sortProblem? 0 rfl (Decidable.not_not.mp paired) ?_
      intro item member
      simpa using accepted item member

/-- Every step that was read has the form of its operation. -/
theorem IsCanonical.hasForm {step : Step} (canonical : step.IsCanonical) :
    HasForm step.operation step.arguments := by
  have shape := canonical.shape
  have bounds := canonical.length_bounds
  have exactly {count : Nat} (least : step.operation.minArguments = count)
      (most : step.operation.maxArguments = some count) : step.arguments.length = count :=
    canonical.length_eq least most
  have listing (isListing : isListing step.operation = true)
      (least : 0 < step.operation.minArguments)
      (checked : step.checkReferencesOnly = .ok ()) : HasForm step.operation step.arguments := by
    have whole := map_references_of_checkReferencesOnly checked
    cases listed : step.references with
    | nil =>
        rw [whole, listed] at bounds
        exact absurd bounds.1 (Nat.not_le_of_lt least)
    | cons first rest =>
        rw [whole, listed]
        exact .listing isListing first rest
  obtain ⟨reference, operation, arguments⟩ := step
  dsimp only at *
  cases operation with
  | retrieveEntity =>
      obtain ⟨argument, rfl⟩ := List.length_eq_one_iff.mp (exactly rfl rfl)
      cases argument with
      | reference target => cases shape
      | literal name => exact .entity name
  | retrieveAttribute =>
      obtain ⟨first, name, rfl⟩ := List.length_eq_two.mp (exactly rfl rfl)
      cases first with
      | literal value => cases shape
      | reference target => exact .retrieval target name
  | collect | groupBy | output => exact listing rfl (by decide) shape
  | sort =>
      obtain ⟨keys, areKeys⟩ := areKeys_of_checkSort shape
      exact .sort areKeys
  | limit =>
      obtain ⟨argument, rfl⟩ := List.length_eq_one_iff.mp (exactly rfl rfl)
      cases argument with
      | reference target => cases shape
      | literal count => exact .limit count
  | rowNumber =>
      obtain ⟨argument, rfl⟩ := List.length_eq_one_iff.mp (exactly rfl rfl)
      cases argument with
      | literal value => cases shape
      | reference target => exact .rowNumber target
  | _ => exact .applied rfl

end Step

end SemanticQuery
