import Mathlib.Logic.Relation
import SemanticQuery.Proofs.Sql.Columns

/-!
# What occurs in expressions

An expression is put together from its parts, and what occurs in it are its parts, their parts and so
on.  The columns of an expression are those that occur in it, and all operands of an operation occur
in what it compiles to.
-/

namespace SemanticQuery.Sql

namespace Expr

def parts : Expr → List Expr
  | .column .. | .value _ | .constant _ => []
  | .binary _ left right => [left, right]
  | .logical _ operands => operands
  | .not operand => [operand]
  | .function _ _ arguments => arguments
  | .cast operand _ => [operand]
  | .withinGroup _ arguments orderBy => arguments ++ [orderBy]
  | .rowNumber orderBy => orderBy.map (·.expr)

/-- An expression occurs in another: it is that expression or occurs in a part of it. -/
def Occurs (inner expr : Expr) : Prop :=
  Relation.ReflTransGen (fun part whole => part ∈ whole.parts) inner expr

variable {inner expr : Expr}

@[simp]
theorem occurs_self (expr : Expr) : expr.Occurs expr :=
  .refl

theorem occurs_iff : inner.Occurs expr ↔ inner = expr ∨ ∃ part ∈ expr.parts, inner.Occurs part := by
  constructor
  · intro occurs
    rcases Relation.ReflTransGen.cases_tail occurs with rfl | ⟨part, path, last⟩
    · exact .inl rfl
    · exact .inr ⟨part, last, path⟩
  · rintro (rfl | ⟨part, last, path⟩)
    · exact .refl
    · exact path.tail last

@[simp]
theorem occurs_binary (operator : Operator) (left right : Expr) :
    inner.Occurs (.binary operator left right) ↔
      inner = .binary operator left right ∨ inner.Occurs left ∨ inner.Occurs right := by
  rw [occurs_iff]
  simp [parts]

@[simp]
theorem occurs_logical (connective : Connective) (operands : List Expr) :
    inner.Occurs (.logical connective operands) ↔
      inner = .logical connective operands ∨ ∃ operand ∈ operands, inner.Occurs operand :=
  occurs_iff

@[simp]
theorem occurs_not (operand : Expr) :
    inner.Occurs (.not operand) ↔ inner = .not operand ∨ inner.Occurs operand := by
  rw [occurs_iff]
  simp [parts]

@[simp]
theorem occurs_function (name : String) (distinct : Bool) (arguments : List Expr) :
    inner.Occurs (.function name distinct arguments) ↔
      inner = .function name distinct arguments ∨ ∃ a ∈ arguments, inner.Occurs a :=
  occurs_iff

@[simp]
theorem occurs_call (name : String) (arguments : List Expr) :
    inner.Occurs (.call name arguments) ↔
      inner = .call name arguments ∨ ∃ a ∈ arguments, inner.Occurs a :=
  occurs_iff

@[simp]
theorem occurs_cast (operand : Expr) (type : String) :
    inner.Occurs (.cast operand type) ↔ inner = .cast operand type ∨ inner.Occurs operand := by
  rw [occurs_iff]
  simp [parts]

@[simp]
theorem occurs_withinGroup (name : String) (arguments : List Expr) (orderBy : Expr) :
    inner.Occurs (.withinGroup name arguments orderBy) ↔
      inner = .withinGroup name arguments orderBy ∨
        (∃ a ∈ arguments, inner.Occurs a) ∨ inner.Occurs orderBy := by
  rw [occurs_iff]
  simp only [parts, List.mem_append, List.mem_singleton, or_and_right, exists_or, exists_eq_left]

/-- A property that passes from the parts of expressions to expressions holds of all expressions. -/
theorem induct {property : Expr → Prop}
    (passes : ∀ expr : Expr, (∀ part ∈ expr.parts, property part) → property expr)
    (expr : Expr) : property expr := by
  refine @Expr.rec property (fun exprs => ∀ expr ∈ exprs, property expr)
    (fun terms => ∀ term ∈ terms, property term.expr) (fun term => property term.expr)
    ?_ ?_ ?_ ?_ ?_ ?_ ?_ ?_ ?_ ?_ ?_ ?_ ?_ ?_ ?_ expr
  · exact fun table name => passes _ (by simp [parts])
  · exact fun value => passes _ (by simp [parts])
  · exact fun text => passes _ (by simp [parts])
  · exact fun operator left right ofLeft ofRight => passes _ (by simp [parts, ofLeft, ofRight])
  · exact fun connective operands each => passes _ each
  · exact fun operand ofOperand => passes _ (by simp [parts, ofOperand])
  · exact fun name distinct arguments each => passes _ each
  · exact fun operand type ofOperand => passes _ (by simp [parts, ofOperand])
  · intro name arguments orderBy each ofOrder
    exact passes _ (List.forall_mem_append.mpr ⟨each, by simp [ofOrder]⟩)
  · exact fun orderBy each => passes _ (List.forall_mem_map.mpr each)
  · exact List.forall_mem_nil _
  · exact fun expr rest first others => List.forall_mem_cons.mpr ⟨first, others⟩
  · exact List.forall_mem_nil _
  · exact fun term rest first others => List.forall_mem_cons.mpr ⟨first, others⟩
  · exact fun expr direction nullsLast ofExpr => ofExpr

/-! ## Columns -/

theorem mem_columnsOfList_iff {column : ColumnRef} {exprs : List Expr} :
    column ∈ columnsOfList exprs ↔ ∃ expr ∈ exprs, column ∈ expr.columns := by
  induction exprs with
  | nil => simp
  | cons expr rest ih => simp [ih]

theorem columnsOfTerms_eq (terms : List (OrderTerm Expr)) :
    columnsOfTerms terms = columnsOfList (terms.map (·.expr)) := by
  induction terms with
  | nil => rfl
  | cons term rest ih => rw [columnsOfTerms, ih, List.map_cons, columnsOfList, columnsOfTerm]

/-- An expression reads a column that it is or that a part of it reads. -/
theorem mem_columns_iff {column : ColumnRef} :
    column ∈ expr.columns ↔
      .column column.table column.column = expr ∨ ∃ part ∈ expr.parts, column ∈ part.columns := by
  cases expr with
  | column table name =>
      cases column
      simp [parts]
  | value | constant | binary | not | cast => simp [parts]
  | logical | function => simp [parts, mem_columnsOfList_iff]
  | withinGroup =>
      simp only [parts, columns, List.mem_append, mem_columnsOfList_iff, List.mem_singleton,
        or_and_right, exists_or, exists_eq_left, reduceCtorEq, false_or]
  | rowNumber orderBy => simp [parts, columnsOfTerms_eq, mem_columnsOfList_iff]

/-- The columns of an expression are those that occur in it. -/
theorem mem_columns_iff_occurs {column : ColumnRef} :
    column ∈ expr.columns ↔ (Expr.column column.table column.column).Occurs expr := by
  induction expr using Expr.induct with
  | passes expr ih =>
      rw [mem_columns_iff, occurs_iff]
      exact or_congr_right (exists_congr fun part => and_congr_right (ih part))

end Expr

end SemanticQuery.Sql

namespace SemanticQuery.Operation

open Sql Sql.Expr

variable {operation : Operation} {operands : List Expr} {result : Expr}

/-! ## Operations -/

theorem occurs_folded {operator : Operator}
    (compiled : operation.folded operator operands = .ok result) :
    ∀ operand ∈ operands, operand.Occurs result := by
  have foldl (rest : List Expr) (first : Expr) :
      first.Occurs (rest.foldl (.binary operator) first) ∧
        ∀ operand ∈ rest, operand.Occurs (rest.foldl (.binary operator) first) := by
    induction rest generalizing first with
    | nil => simp
    | cons operand rest ih =>
        obtain ⟨both, others⟩ := ih (.binary operator first operand)
        have within {inner : Expr} (occurs : inner.Occurs (.binary operator first operand)) :
            inner.Occurs (rest.foldl (.binary operator) (.binary operator first operand)) :=
          occurs.trans both
        exact ⟨within (by simp), List.forall_mem_cons.mpr ⟨within (by simp), others⟩⟩
  cases operands with
  | nil => cases compiled
  | cons first rest =>
      cases compiled
      exact List.forall_mem_cons.mpr (foldl rest first)

theorem occurs_connected {connective : Connective}
    (compiled : operation.connected connective operands = .ok result) :
    ∀ operand ∈ operands, operand.Occurs result := by
  unfold connected at compiled
  split at compiled
  · cases compiled
  · cases compiled
    simp
  · cases compiled
    intro operand member
    exact (occurs_logical _ _).mpr (.inr ⟨operand, member, .refl⟩)

theorem occurs_castFirst {dialect : Dialect}
    (each : ∀ operand ∈ castFirst dialect operands, operand.Occurs result) :
    ∀ operand ∈ operands, operand.Occurs result := by
  cases operands with
  | nil => nofun
  | cons first rest =>
      obtain ⟨cast, others⟩ := List.forall_mem_cons.mp each
      have first : first.Occurs (.cast first dialect.floatType) := by simp
      exact List.forall_mem_cons.mpr ⟨first.trans cast, others⟩

theorem occurs_function {name : String}
    (compiled : operation.function name operands = .ok result) :
    ∀ operand ∈ operands, operand.Occurs result := by
  obtain ⟨operand, rfl, rfl⟩ := withOne_eq_ok_iff.mp compiled
  simp

theorem occurs_rounded (dialect : Dialect) (digits : Nat) (operand : Expr) :
    operand.Occurs (rounded dialect digits operand) := by
  simp [rounded]

/-- All operands of an operation occur in what it compiles to. -/
theorem occurs_compile {dialect : Dialect}
    (compiled : operation.compile dialect operands = .ok result) :
    ∀ operand ∈ operands, operand.Occurs result := by
  cases operation with
  | equals | lessThan | atMost | greaterThan | atLeast | contains | percentChange =>
      obtain ⟨left, right, rfl, rfl⟩ := withTwo_eq_ok_iff.mp compiled
      simp
  | conjunction | disjunction => exact occurs_connected compiled
  | negation | countUnique =>
      obtain ⟨operand, rfl, rfl⟩ := withOne_eq_ok_iff.mp compiled
      simp
  | add | subtract | multiply => exact occurs_folded compiled
  | divide | percentage => exact occurs_castFirst (occurs_folded compiled)
  | squareRoot | absolute | average | count | maximum | minimum | getOne | sum =>
      exact occurs_function compiled
  | duration =>
      obtain ⟨start, finish, rfl, rfl⟩ := withTwo_eq_ok_iff.mp compiled
      cases dialect <;> simp
  | median =>
      cases dialect with
      | sqlite => exact occurs_function compiled
      | postgres =>
          obtain ⟨operand, rfl, rfl⟩ := withOne_eq_ok_iff.mp compiled
          simp
  | deviation => cases dialect <;> exact occurs_function compiled
  | concatenation =>
      obtain ⟨operand, rfl, rfl⟩ := withOne_eq_ok_iff.mp compiled
      cases dialect <;> simp
  | correlation =>
      obtain ⟨left, right, rfl, rfl⟩ := withTwo_eq_ok_iff.mp compiled
      cases dialect <;> simp [correlationByMoments, covariance, meanOf]
  | retrieveEntity | retrieveAttribute | groupBy | sort | limit | rowNumber | collect | output =>
      cases compiled

end SemanticQuery.Operation
