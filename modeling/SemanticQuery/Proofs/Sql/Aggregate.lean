import SemanticQuery.Operation.Compile

/-!
# Aggregates in SQL expressions

An expression holds an aggregate when a function of a group of rows occurs in it.  What an operation
compiles to holds one exactly when the operation is an analysis or one of its operands holds one.
-/

namespace SemanticQuery.Sql

def aggregateNames : List String :=
  ["AVG", "COUNT", "MAX", "MIN", "SUM", "median", "stdev", "stddev", "group_concat", "string_agg",
    "corr"]

mutual

def Expr.hasAggregate : Expr → Bool
  | .column .. | .value _ | .constant _ => false
  | .binary _ left right => left.hasAggregate || right.hasAggregate
  | .logical _ operands => Expr.anyAggregate operands
  | .not operand => operand.hasAggregate
  | .function name _ arguments => name ∈ aggregateNames || Expr.anyAggregate arguments
  | .cast operand _ => operand.hasAggregate
  | .withinGroup .. => true
  | .rowNumber orderBy => Expr.anyTermAggregate orderBy

def Expr.anyAggregate : List Expr → Bool
  | [] => false
  | expr :: rest => expr.hasAggregate || Expr.anyAggregate rest

def Expr.termAggregate : OrderTerm Expr → Bool
  | ⟨expr, _, _⟩ => expr.hasAggregate

def Expr.anyTermAggregate : List (OrderTerm Expr) → Bool
  | [] => false
  | term :: rest => Expr.termAggregate term || Expr.anyTermAggregate rest

end

theorem Expr.hasAggregate_call_of_not_mem {name : String} (other : name ∉ aggregateNames)
    (arguments : List Expr) :
    (Expr.call name arguments).hasAggregate = Expr.anyAggregate arguments := by
  simp [call, hasAggregate, other]

end SemanticQuery.Sql

namespace SemanticQuery.Operation

open Sql Sql.Expr

variable {operation : Operation} {operands : List Expr} {result : Expr}

theorem withOne_eq_ok_iff {build : Expr → Expr} :
    operation.withOne operands build = .ok result ↔
      ∃ operand, operands = [operand] ∧ build operand = result := by
  unfold withOne
  split
  · simp
  · rename_i other
    simp only [reduceCtorEq, false_iff]
    rintro ⟨operand, single, -⟩
    exact other operand single

theorem withTwo_eq_ok_iff {build : Expr → Expr → Expr} :
    operation.withTwo operands build = .ok result ↔
      ∃ left right, operands = [left, right] ∧ build left right = result := by
  unfold withTwo
  split
  · rename_i left right
    rw [Except.ok.injEq]
    constructor
    · intro built
      exact ⟨left, right, rfl, built⟩
    · rintro ⟨_, _, ⟨⟩, built⟩
      exact built
  · rename_i other
    simp only [reduceCtorEq, false_iff]
    rintro ⟨left, right, pair, -⟩
    exact other left right pair

theorem hasAggregate_folded {operator : Operator}
    (compiled : operation.folded operator operands = .ok result) :
    result.hasAggregate = anyAggregate operands := by
  have foldl (rest : List Expr) (first : Expr) :
      (rest.foldl (.binary operator) first).hasAggregate =
        (first.hasAggregate || anyAggregate rest) := by
    induction rest generalizing first with
    | nil => simp [anyAggregate]
    | cons operand rest ih =>
        rw [List.foldl_cons, ih, hasAggregate, anyAggregate, Bool.or_assoc]
  cases operands with
  | nil => cases compiled
  | cons first rest =>
      cases compiled
      rw [foldl, anyAggregate]

theorem hasAggregate_connected {connective : Connective}
    (compiled : operation.connected connective operands = .ok result) :
    result.hasAggregate = anyAggregate operands := by
  unfold connected at compiled
  split at compiled
  · cases compiled
  · cases compiled
    simp [anyAggregate]
  · cases compiled
    rw [hasAggregate]

theorem anyAggregate_castFirst (dialect : Dialect) (operands : List Expr) :
    anyAggregate (castFirst dialect operands) = anyAggregate operands := by
  cases operands with
  | nil => rfl
  | cons first rest => simp [castFirst, anyAggregate, hasAggregate]

theorem hasAggregate_rounded (dialect : Dialect) (digits : Nat) (operand : Expr) :
    (rounded dialect digits operand).hasAggregate = operand.hasAggregate := by
  rw [rounded, hasAggregate_call_of_not_mem (by decide)]
  simp [anyAggregate, hasAggregate, integer]

theorem hasAggregate_function {name : String}
    (compiled : operation.function name operands = .ok result) :
    result.hasAggregate = (decide (name ∈ aggregateNames) || anyAggregate operands) := by
  obtain ⟨operand, rfl, rfl⟩ := withOne_eq_ok_iff.mp compiled
  rw [call, hasAggregate]

/-- What an operation compiles to holds an aggregate exactly when the operation is an analysis or an
operand holds one. -/
theorem hasAggregate_compile {dialect : Dialect}
    (compiled : operation.compile dialect operands = .ok result) :
    result.hasAggregate = (operation.isAnalysis || anyAggregate operands) := by
  cases operation with
  | equals | lessThan | atMost | greaterThan | atLeast | contains =>
      obtain ⟨left, right, rfl, rfl⟩ := withTwo_eq_ok_iff.mp compiled
      simp [hasAggregate, anyAggregate, isAnalysis, category]
  | conjunction | disjunction =>
      rw [hasAggregate_connected compiled]
      rfl
  | negation =>
      obtain ⟨operand, rfl, rfl⟩ := withOne_eq_ok_iff.mp compiled
      simp [hasAggregate, anyAggregate, isAnalysis, category]
  | add | subtract | multiply =>
      rw [hasAggregate_folded compiled]
      rfl
  | divide | percentage =>
      rw [hasAggregate_folded compiled, anyAggregate_castFirst]
      rfl
  | percentChange =>
      obtain ⟨before, after, rfl, rfl⟩ := withTwo_eq_ok_iff.mp compiled
      simp [hasAggregate, anyAggregate, isAnalysis, category, integer, Bool.or_comm]
  | squareRoot | absolute => exact hasAggregate_function compiled
  | duration =>
      obtain ⟨start, finish, rfl, rfl⟩ := withTwo_eq_ok_iff.mp compiled
      cases dialect <;>
        simp [hasAggregate, hasAggregate_call_of_not_mem, aggregateNames, anyAggregate, isAnalysis,
          category, Bool.or_comm]
  | average | count | maximum | minimum | getOne | sum => exact hasAggregate_function compiled
  | countUnique =>
      obtain ⟨operand, rfl, rfl⟩ := withOne_eq_ok_iff.mp compiled
      rfl
  | median | deviation =>
      cases dialect with
      | sqlite => exact hasAggregate_function compiled
      | postgres =>
          obtain ⟨operand, rfl, rfl⟩ := withOne_eq_ok_iff.mp compiled
          rfl
  | concatenation =>
      obtain ⟨operand, rfl, rfl⟩ := withOne_eq_ok_iff.mp compiled
      cases dialect <;> rfl
  | correlation =>
      obtain ⟨left, right, rfl, rfl⟩ := withTwo_eq_ok_iff.mp compiled
      cases dialect <;> rfl
  | retrieveEntity | retrieveAttribute | groupBy | sort | limit | rowNumber | collect | output =>
      cases compiled

end SemanticQuery.Operation
