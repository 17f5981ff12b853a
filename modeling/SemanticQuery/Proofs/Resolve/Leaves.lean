import SemanticQuery.Proofs.Resolve.DateParts
import SemanticQuery.Proofs.Resolve.Handles

/-!
# The leaves of handles

A handle is a tree of operations over attributes, columns of other subplans and literals.  Its
expression reads the columns that these leaves stand for and no others, whatever the operations in
between compile to, and each literal occurs in it with its value.
-/

namespace SemanticQuery

open Sql

/-! ## Literals -/

namespace Operand

variable {scope : Scope} {value : Literal}

theorem literal_mem_of_resolveAll {operands : List Operand} {results : List Resolved}
    (found : Operand.resolveAll scope operands = .ok results) (member : .literal value ∈ operands) :
    ⟨.value value.toValue, []⟩ ∈ results := by
  induction operands generalizing results with
  | nil => cases member
  | cons operand rest ih =>
      cases operand with
      | handle first =>
          rw [Operand.resolveAll] at found
          obtain ⟨_, -, found⟩ := bind_eq_ok_iff.mp found
          obtain ⟨others, othersOk, same⟩ := bind_eq_ok_iff.mp found
          cases same
          rcases List.mem_cons.mp member with impossible | later
          · cases impossible
          · exact List.mem_cons_of_mem _ (ih othersOk later)
      | literal first =>
          rw [Operand.resolveAll] at found
          obtain ⟨others, othersOk, same⟩ := bind_eq_ok_iff.mp found
          cases same
          rcases List.mem_cons.mp member with same | later
          · cases same
            exact List.mem_cons_self
          · exact List.mem_cons_of_mem _ (ih othersOk later)
      | direction order =>
          rw [Operand.resolveAll] at found
          rcases List.mem_cons.mp member with impossible | later
          · cases impossible
          · exact ih found later

/-- The terms of an ordering are no literals. -/
theorem literal_not_mem_of_resolveTerms {operands : List Operand}
    {terms : List (OrderTerm Expr × List String)}
    (found : Operand.resolveTerms scope operands = .ok terms) : .literal value ∉ operands := by
  match operands with
  | [] => exact List.not_mem_nil
  | .handle first :: .direction order :: rest =>
      rw [Operand.resolveTerms] at found
      obtain ⟨key, -, found⟩ := bind_eq_ok_iff.mp found
      obtain ⟨others, othersOk, -⟩ := bind_eq_ok_iff.mp found
      simpa using literal_not_mem_of_resolveTerms othersOk
  | [.handle _] | .handle _ :: .handle _ :: _ | .handle _ :: .literal _ :: _ | .literal _ :: _
  | .direction _ :: _ => simp [Operand.resolveTerms] at found

end Operand

/-! ## Handles -/

namespace Handle

variable {scope : Scope} {handle : Handle} {resolved : Resolved}

theorem occurs_literal {operation : Operation} {operands : List Operand} {value : Literal}
    (found : (Handle.expression operation operands).resolve scope = .ok resolved)
    (member : .literal value ∈ operands) : (Expr.value value.toValue).Occurs resolved.expr := by
  rw [Handle.resolve] at found
  split at found
  · obtain ⟨terms, termsOk, -⟩ := bind_eq_ok_iff.mp found
    exact absurd member (Operand.literal_not_mem_of_resolveTerms termsOk)
  · obtain ⟨-, -, found⟩ := bind_eq_ok_iff.mp found
    obtain ⟨results, resultsOk, applied⟩ := bind_eq_ok_iff.mp found
    exact Scope.occurs_apply applied (Operand.literal_mem_of_resolveAll resultsOk member)

def IsLeaf : Handle → Prop
  | .field .. | .column .. => True
  | .expression .. => False

structure ReadsLeaves (scope : Scope) (handle : Handle) (expr : Expr) : Prop where
  /-- Every leaf stands for a column. -/
  stored : ∀ leaf : Handle, leaf.Occurs handle → leaf.IsLeaf →
    ∃ column, leaf.column? scope.ring = some column
  /-- The columns that occur in the expression are those that the leaves stand for. -/
  columns : ∀ column : ColumnRef, (Expr.column column.table column.column).Occurs expr ↔
    ∃ leaf : Handle, leaf.Occurs handle ∧ leaf.column? scope.ring = some column
  /-- The value of every literal occurs in the expression. -/
  values : ∀ operation operands, (Handle.expression operation operands).Occurs handle →
    ∀ value, .literal value ∈ operands → (Expr.value value.toValue).Occurs expr

theorem exists_column_of_resolve (leaf : handle.IsLeaf) (found : handle.resolve scope = .ok resolved) :
    ∃ column, handle.column? scope.ring = some column := by
  cases handle with
  | field entity name =>
      rw [Handle.resolve] at found
      obtain ⟨owner, column, isField⟩ := Scope.exists_isField found
      exact ⟨column, isField.stored⟩
  | column subplan name origin => exact ⟨_, rfl⟩
  | expression => cases leaf

/-- What a handle resolves to reads the columns that its leaves stand for and no others, and holds the
values of its literals. -/
theorem readsLeaves_of_resolve {scope : Scope} {handle : Handle} {resolved : Resolved}
    (found : handle.resolve scope = .ok resolved) : handle.ReadsLeaves scope resolved.expr where
  stored := by
    intro leaf occurs isLeaf
    obtain ⟨result, resultOk, -⟩ := exists_resolve_of_occurs occurs found
    exact exists_column_of_resolve isLeaf resultOk
  columns := by
    intro column
    rw [← Expr.mem_columns_iff_occurs]
    exact mem_columns_resolve found
  values := by
    intro operation operands occurs value member
    obtain ⟨result, resultOk, within, -⟩ := exists_part_of_occurs occurs found
    exact (occurs_literal resultOk member).trans within

/-- Whether the latest year of hiring exceeds a total of another subplan and the employee has a
number. -/
def latestYear : Handle :=
  .expression .conjunction
    [.handle (.expression .greaterThan
      [.handle (.expression .maximum [.handle (.field "Employee" "hired:year")]),
        .handle (.column ⟨0⟩ "total" (.field "Employee" "hired:month"))]),
      .handle (.expression .equals [.handle (.field "Employee" "id"), .literal (.bare "7")])]

/-- The column that the total comes from in its own subplan is not read here. -/
theorem readsLeaves_of_resolve_latestYear :
    ∃ ring resolved, Ring.ofDocument hiringDocument = .ok ring ∧
      latestYear.resolve { ring.scope with exposed := [(⟨0⟩, ["total"])] } = .ok resolved ∧
      resolved.expr.columns =
        [⟨"employee", "hired_on"⟩, ⟨"alias_0", "total"⟩, ⟨"employee", "id"⟩] ∧
      (Expr.value (.integer 7)).Occurs resolved.expr ∧
      latestYear.ReadsLeaves { ring.scope with exposed := [(⟨0⟩, ["total"])] } resolved.expr := by
  have runs : (Ring.ofDocument hiringDocument >>= fun ring =>
      (latestYear.resolve { ring.scope with exposed := [(⟨0⟩, ["total"])] }).map
        (·.expr.columns)) =
      .ok [⟨"employee", "hired_on"⟩, ⟨"alias_0", "total"⟩, ⟨"employee", "id"⟩] := by
    decide +kernel
  obtain ⟨ring, loads, runs⟩ := bind_eq_ok_iff.mp runs
  obtain ⟨resolved, resolves, columns⟩ := map_eq_ok_iff.mp runs
  have reads := readsLeaves_of_resolve resolves
  have seven : (Literal.bare "7").toValue = .integer 7 := by decide +kernel
  refine ⟨ring, resolved, loads, resolves, columns, ?_, reads⟩
  rw [← seven]
  refine reads.values .equals [.handle (.field "Employee" "id"), .literal (.bare "7")] ?_ (.bare "7")
    (by simp)
  have isOperand : IsOperand
      (.expression .equals [.handle (.field "Employee" "id"), .literal (.bare "7")]) latestYear := by
    simp [IsOperand, latestYear]
  exact .single isOperand

end Handle

end SemanticQuery
