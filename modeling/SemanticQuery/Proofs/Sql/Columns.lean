import Mathlib.Tactic.Tauto
import SemanticQuery.Proofs.Sql.Aggregate
import SemanticQuery.Resolve.Joins

/-!
# The columns that expressions read

The columns in an expression, and where they come from: what an operation compiles to reads exactly
the columns of its operands, and the condition of a join those of its column pairs.
-/

namespace SemanticQuery.Sql

mutual

def Expr.columns : Expr → List ColumnRef
  | .column table name => [⟨table, name⟩]
  | .value _ | .constant _ => []
  | .binary _ left right => left.columns ++ right.columns
  | .logical _ operands => Expr.columnsOfList operands
  | .not operand => operand.columns
  | .function _ _ arguments => Expr.columnsOfList arguments
  | .cast operand _ => operand.columns
  | .withinGroup _ arguments orderBy => Expr.columnsOfList arguments ++ orderBy.columns
  | .rowNumber orderBy => Expr.columnsOfTerms orderBy

def Expr.columnsOfList : List Expr → List ColumnRef
  | [] => []
  | expr :: rest => expr.columns ++ Expr.columnsOfList rest

def Expr.columnsOfTerm : OrderTerm Expr → List ColumnRef
  | ⟨expr, _, _⟩ => expr.columns

def Expr.columnsOfTerms : List (OrderTerm Expr) → List ColumnRef
  | [] => []
  | term :: rest => Expr.columnsOfTerm term ++ Expr.columnsOfTerms rest

end

attribute [simp] Expr.columns Expr.columnsOfList Expr.columnsOfTerm Expr.columnsOfTerms

@[simp]
theorem Expr.columns_call (name : String) (arguments : List Expr) :
    (Expr.call name arguments).columns = Expr.columnsOfList arguments := by
  simp [call]

@[simp]
theorem Expr.columns_integer (value : Int) : (Expr.integer value).columns = [] := by
  simp [integer]

end SemanticQuery.Sql

namespace SemanticQuery

open Sql Sql.Expr

/-! ## Operations -/

namespace Operation

variable {operation : Operation} {operands : List Expr} {result : Expr} {column : ColumnRef}

theorem columns_folded {operator : Operator}
    (compiled : operation.folded operator operands = .ok result) :
    result.columns = columnsOfList operands := by
  have foldl (rest : List Expr) (first : Expr) :
      (rest.foldl (.binary operator) first).columns = first.columns ++ columnsOfList rest := by
    induction rest generalizing first with
    | nil => simp
    | cons operand rest ih => simp [ih]
  cases operands with
  | nil => cases compiled
  | cons first rest =>
      cases compiled
      rw [foldl, columnsOfList]

theorem columns_connected {connective : Connective}
    (compiled : operation.connected connective operands = .ok result) :
    result.columns = columnsOfList operands := by
  unfold connected at compiled
  split at compiled
  · cases compiled
  · cases compiled
    simp
  · cases compiled
    rw [columns]

@[simp]
theorem columnsOfList_castFirst (dialect : Dialect) (operands : List Expr) :
    columnsOfList (castFirst dialect operands) = columnsOfList operands := by
  cases operands with
  | nil => rfl
  | cons first rest => simp [castFirst]

@[simp]
theorem columns_rounded (dialect : Dialect) (digits : Nat) (operand : Expr) :
    (rounded dialect digits operand).columns = operand.columns := by
  simp [rounded]

theorem columns_function {name : String}
    (compiled : operation.function name operands = .ok result) :
    result.columns = columnsOfList operands := by
  obtain ⟨operand, rfl, rfl⟩ := withOne_eq_ok_iff.mp compiled
  rw [columns_call]

/-- What an operation compiles to reads the columns of its operands. -/
theorem mem_columns_compile {dialect : Dialect}
    (compiled : operation.compile dialect operands = .ok result) :
    column ∈ result.columns ↔ column ∈ columnsOfList operands := by
  cases operation with
  | equals | lessThan | atMost | greaterThan | atLeast | contains =>
      obtain ⟨left, right, rfl, rfl⟩ := withTwo_eq_ok_iff.mp compiled
      simp
  | conjunction | disjunction => rw [columns_connected compiled]
  | negation =>
      obtain ⟨operand, rfl, rfl⟩ := withOne_eq_ok_iff.mp compiled
      simp
  | add | subtract | multiply => rw [columns_folded compiled]
  | divide | percentage => rw [columns_folded compiled, columnsOfList_castFirst]
  | percentChange =>
      obtain ⟨before, after, rfl, rfl⟩ := withTwo_eq_ok_iff.mp compiled
      simp [or_comm]
  | squareRoot | absolute => rw [columns_function compiled]
  | duration =>
      obtain ⟨start, finish, rfl, rfl⟩ := withTwo_eq_ok_iff.mp compiled
      cases dialect <;> simp [or_comm]
  | average | count | maximum | minimum | getOne | sum => rw [columns_function compiled]
  | countUnique =>
      obtain ⟨operand, rfl, rfl⟩ := withOne_eq_ok_iff.mp compiled
      simp
  | median | deviation =>
      cases dialect with
      | sqlite => rw [columns_function compiled]
      | postgres =>
          obtain ⟨operand, rfl, rfl⟩ := withOne_eq_ok_iff.mp compiled
          simp
  | concatenation =>
      obtain ⟨operand, rfl, rfl⟩ := withOne_eq_ok_iff.mp compiled
      cases dialect <;> simp
  | correlation =>
      obtain ⟨left, right, rfl, rfl⟩ := withTwo_eq_ok_iff.mp compiled
      cases dialect with
      | sqlite =>
          simp only [correlationByMoments, covariance, meanOf, columns, columns_call, columnsOfList,
            List.append_nil, List.mem_append]
          tauto
      | postgres => simp
  | retrieveEntity | retrieveAttribute | groupBy | sort | limit | rowNumber | collect | output =>
      cases compiled

end Operation

/-! ## Joins -/

/-- The condition of a join reads the columns of its pairs, in order. -/
theorem Join.columns_condition (join : Join) :
    join.condition.columns = join.path.flatMap fun pair => [pair.source, pair.target] := by
  have equalities (path : List JoinColumns) :
      columnsOfList (path.map fun pair =>
        Expr.binary .equal (.column pair.source.table pair.source.column)
          (.column pair.target.table pair.target.column)) =
        path.flatMap fun pair => [pair.source, pair.target] := by
    induction path with
    | nil => rfl
    | cons pair rest ih => simp [ih]
  unfold condition
  split
  · rename_i equality single
    rw [← equalities, single]
    simp
  · rw [columns, equalities]

end SemanticQuery
