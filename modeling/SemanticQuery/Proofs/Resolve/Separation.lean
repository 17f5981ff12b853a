import SemanticQuery.Compiled
import SemanticQuery.Proofs.Draft.Predicates
import SemanticQuery.Proofs.Handle.Analysis
import SemanticQuery.Proofs.Resolve.Query
import SemanticQuery.Proofs.Sql.Aggregate
import SemanticQuery.Ring.Load

/-!
# The separation of filters

A handle resolves to an expression with an aggregate exactly when it is an analysis or one occurs
below it.  So every HAVING of a compiled query holds an aggregate, and a WHERE holds one exactly
when a connective in its predicate is applied directly to an analysis.
-/

namespace SemanticQuery

open Sql Sql.Expr

/-! ## Attributes -/

theorem DatePart.hasAggregate_extract (dialect : Dialect) (part : Option DatePart)
    (operand : Expr) :
    (DatePart.extract dialect part operand).hasAggregate = operand.hasAggregate := by
  cases part with
  | none => rfl
  | some part =>
      cases dialect <;> cases part <;>
        simp [extract, postgresExpr, hasAggregate, hasAggregate_call_of_not_mem, aggregateNames,
          anyAggregate]

theorem Attribute.hasAggregate_replaceNulls (a : Attribute) (operand : Expr) :
    (a.replaceNulls operand).hasAggregate = operand.hasAggregate := by
  unfold replaceNulls
  split
  · split
    · rfl
    · simp [hasAggregate, hasAggregate_call_of_not_mem, aggregateNames, anyAggregate]
  · rfl

theorem Attribute.hasAggregate_round (a : Attribute) (dialect : Dialect) (operand : Expr) :
    (a.round dialect operand).hasAggregate = operand.hasAggregate := by
  unfold round
  split
  · exact Operation.hasAggregate_rounded dialect _ operand
  · rfl

namespace Scope

variable {scope : Scope} {resolved : Resolved}

theorem hasAggregate_field {entity name : String} (found : scope.field entity name = .ok resolved) :
    resolved.expr.hasAggregate = false := by
  obtain ⟨owner, -, found⟩ := bind_eq_ok_iff.mp found
  dsimp only at found
  split at found
  · split at found
    · cases found
      rw [DatePart.hasAggregate_extract, hasAggregate]
    · cases found
  · obtain ⟨a, -, found⟩ := bind_eq_ok_iff.mp found
    obtain ⟨joins, -, found⟩ := bind_eq_ok_iff.mp found
    split at found
    · cases found
    · obtain ⟨physical, -, same⟩ := bind_eq_ok_iff.mp found
      cases same
      rw [Attribute.hasAggregate_round, Attribute.hasAggregate_replaceNulls,
        DatePart.hasAggregate_extract, hasAggregate]

theorem hasAggregate_column {subplan : SubplanId} {name : String}
    (found : scope.column subplan name = .ok resolved) : resolved.expr.hasAggregate = false := by
  unfold column at found
  split at found
  · cases found
    rfl
  · cases found

theorem hasAggregate_apply {operation : Operation} {operands : List Resolved}
    (applied : scope.apply operation operands = .ok resolved) :
    resolved.expr.hasAggregate =
      (operation.isAnalysis || anyAggregate (operands.map (·.expr))) := by
  obtain ⟨result, compiled, applied⟩ := bind_eq_ok_iff.mp applied
  dsimp only at applied
  split at applied
  · cases applied
    rw [Operation.hasAggregate_rounded]
    exact Operation.hasAggregate_compile compiled
  · cases applied
    exact Operation.hasAggregate_compile compiled

end Scope

/-! ## Handles -/

section Operands

variable {scope : Scope} {uses : Handle → Prop}

theorem Operand.anyAggregate_resolveAll {operands : List Operand} {resolved : List Resolved}
    (each : ∀ inner, .handle inner ∈ operands → ∀ result, inner.resolve scope = .ok result →
      (result.expr.hasAggregate = true ↔ uses inner))
    (found : Operand.resolveAll scope operands = .ok resolved) :
    Expr.anyAggregate (resolved.map (·.expr)) = true ↔
      ∃ inner, .handle inner ∈ operands ∧ uses inner := by
  induction operands generalizing resolved with
  | nil =>
      rw [Operand.resolveAll] at found
      cases found
      simp [Expr.anyAggregate]
  | cons operand rest ih =>
      have later {others : List Resolved} (run : Operand.resolveAll scope rest = .ok others) :=
        ih (fun inner member => each inner (List.mem_cons_of_mem _ member)) run
      cases operand with
      | handle first =>
          rw [Operand.resolveAll] at found
          obtain ⟨result, firstOk, found⟩ := bind_eq_ok_iff.mp found
          obtain ⟨others, othersOk, same⟩ := bind_eq_ok_iff.mp found
          cases same
          rw [List.map_cons, Expr.anyAggregate, Bool.or_eq_true, later othersOk,
            each first List.mem_cons_self result firstOk]
          simp [or_and_right, exists_or]
      | literal value =>
          rw [Operand.resolveAll] at found
          obtain ⟨others, othersOk, same⟩ := bind_eq_ok_iff.mp found
          cases same
          rw [List.map_cons, Expr.anyAggregate, Expr.hasAggregate, Bool.false_or, later othersOk]
          simp
      | direction value =>
          rw [Operand.resolveAll] at found
          rw [later found]
          simp

theorem Operand.anyTermAggregate_resolveTerms {operands : List Operand}
    {terms : List (OrderTerm Expr × List String)}
    (each : ∀ inner, .handle inner ∈ operands → ∀ result, inner.resolve scope = .ok result →
      (result.expr.hasAggregate = true ↔ uses inner))
    (found : Operand.resolveTerms scope operands = .ok terms) :
    Expr.anyTermAggregate (terms.map (·.1)) = true ↔
      ∃ inner, .handle inner ∈ operands ∧ uses inner := by
  match operands with
  | [] =>
      rw [Operand.resolveTerms] at found
      cases found
      simp [Expr.anyTermAggregate]
  | .handle first :: .direction order :: rest =>
      rw [Operand.resolveTerms] at found
      obtain ⟨key, keyOk, found⟩ := bind_eq_ok_iff.mp found
      obtain ⟨others, othersOk, same⟩ := bind_eq_ok_iff.mp found
      cases same
      have later := anyTermAggregate_resolveTerms
        (fun inner member => each inner (by simp [member])) othersOk
      rw [List.map_cons, Expr.anyTermAggregate, Expr.termAggregate, Bool.or_eq_true, later,
        each first List.mem_cons_self key keyOk]
      simp [or_and_right, exists_or]
  | [.handle _] | .handle _ :: .handle _ :: _ | .handle _ :: .literal _ :: _ | .literal _ :: _
  | .direction _ :: _ => simp [Operand.resolveTerms] at found

end Operands

/-- A handle resolves to an expression with an aggregate exactly when it is an analysis or one
occurs below it. -/
theorem Handle.hasAggregate_resolve {scope : Scope} {handle : Handle} {resolved : Resolved}
    (found : handle.resolve scope = .ok resolved) :
    resolved.expr.hasAggregate = true ↔ handle.isAnalysis = true ∨ handle.HasAnalysisBelow := by
  induction handle using Handle.induct generalizing resolved with
  | passes handle ih =>
      rw [Handle.hasAnalysisBelow_iff]
      cases handle with
      | field entity name =>
          rw [Handle.resolve] at found
          simp [Scope.hasAggregate_field found, Handle.isAnalysis, Handle.IsOperand]
      | column subplan name origin =>
          rw [Handle.resolve] at found
          simp [Scope.hasAggregate_column found, Handle.isAnalysis, Handle.IsOperand]
      | expression operation operands =>
          have each (inner : Handle) (member : .handle inner ∈ operands) (result : Resolved)
              (innerOk : inner.resolve scope = .ok result) :
              result.expr.hasAggregate = true ↔ inner.isAnalysis = true ∨ inner.HasAnalysisBelow :=
            ih inner member innerOk
          rw [Handle.resolve] at found
          split at found
          · rename_i rowNumber
            obtain ⟨terms, termsOk, same⟩ := bind_eq_ok_iff.mp found
            cases same
            rw [Expr.hasAggregate, Operand.anyTermAggregate_resolveTerms each termsOk]
            simp [Handle.isAnalysis, Handle.IsOperand, rowNumber, Operation.isAnalysis,
              Operation.category]
          · obtain ⟨-, -, found⟩ := bind_eq_ok_iff.mp found
            obtain ⟨results, resultsOk, applied⟩ := bind_eq_ok_iff.mp found
            rw [Scope.hasAggregate_apply applied, Bool.or_eq_true,
              Operand.anyAggregate_resolveAll each resultsOk]
            rfl

/-! ## Queries -/

theorem Compilation.exists_of_resolveOption {scope : Scope} {handle : Option Handle}
    {resolved : Resolved} (found : resolveOption scope handle = .ok (some resolved)) :
    ∃ predicate, handle = some predicate ∧ predicate.resolve scope = .ok resolved := by
  cases handle with
  | none => cases found
  | some predicate =>
      obtain ⟨result, resultOk, same⟩ := bind_eq_ok_iff.mp found
      cases same
      exact ⟨predicate, rfl, resultOk⟩

def Handle.ResolvesTo (handle : Handle) (expr : Expr) : Prop :=
  ∃ scope resolved, handle.resolve scope = .ok resolved ∧ resolved.expr = expr

/-- What the predicates of a query and of its draft have to do with aggregates. -/
structure IsSeparated (draft : Draft) (select : Select) : Prop where
  having : ∀ expr, select.having = some expr → ∃ predicate, draft.having = some predicate ∧
    predicate.ResolvesTo expr ∧ expr.hasAggregate = true
  /-- The WHERE holds an aggregate exactly when a connective is applied directly to an analysis. -/
  filter : ∀ expr, select.filter = some expr → ∃ predicate, draft.filter = some predicate ∧
    predicate.ResolvesTo expr ∧ (expr.hasAggregate = true ↔ predicate.ConnectsAnalysis)

theorem Compilation.IsQuery.isSeparated {compilation : Compilation} {draft resolved : Draft}
    {select : Select} (isQuery : IsQuery compilation draft select resolved)
    (split : draft.IsSplit) : IsSeparated resolved select := by
  rw [isQuery.resolved_eq]
  constructor
  · intro expr isHaving
    obtain ⟨having, havingOk, whole⟩ := isQuery.having
    rw [whole] at isHaving
    obtain ⟨found, rfl, rfl⟩ := Option.map_eq_some_iff.mp isHaving
    obtain ⟨predicate, isPredicate, resolves⟩ := exists_of_resolveOption havingOk
    refine ⟨predicate, isPredicate, ⟨_, found, resolves, rfl⟩, ?_⟩
    rw [Handle.hasAggregate_resolve resolves, Handle.hasAnalysisBelow_iff_containsAggregate]
    exact .inr (.inl (split.having predicate isPredicate))
  · intro expr isFilter
    obtain ⟨filter, filterOk, whole⟩ := isQuery.filter
    rw [whole] at isFilter
    obtain ⟨found, rfl, rfl⟩ := Option.map_eq_some_iff.mp isFilter
    obtain ⟨predicate, isPredicate, resolves⟩ := exists_of_resolveOption filterOk
    obtain ⟨lacks, noAnalysis⟩ := split.filter predicate isPredicate
    refine ⟨predicate, isPredicate, ⟨_, found, resolves, rfl⟩, ?_⟩
    rw [Handle.hasAggregate_resolve resolves, Handle.hasAnalysisBelow_iff_containsAggregate]
    simp [lacks, noAnalysis]

/-- In every query within a compiled one, a HAVING holds an aggregate, and a WHERE holds one exactly
when a connective in its predicate is applied directly to an analysis.  These are the analyses that
are not noticed when predicates are told apart. -/
theorem compile_isSeparated {raw : Entries String String} {ring : Ring} {settings : Settings}
    {compiled : Compiled} (compiles : compile raw ring settings = .ok compiled) :
    (∀ select, select.IsPart compiled.select →
      ∃ draft ∈ compiled.drafts, IsSeparated draft select) ∧
    ∀ handle : Handle, handle.HasAnalysisBelow ↔
      handle.containsAggregate = true ∨ handle.ConnectsAnalysis := by
  refine ⟨?_, fun handle => Handle.hasAnalysisBelow_iff_containsAggregate⟩
  obtain ⟨plan, -, compiles⟩ := bind_eq_ok_iff.mp compiles
  obtain ⟨drafts, drafted, compiles⟩ := bind_eq_ok_iff.mp compiles
  obtain ⟨resolution, resolves, same⟩ := bind_eq_ok_iff.mp compiles
  cases same
  intro select isPart
  have split := Draft.isSplit_of_drafts drafted
  refine exists_draft_of_isPart ?_ resolves isPart
  intro draft member compilation query resolved isQuery
  exact isQuery.isSeparated (split draft member)

def peopleDocument : Document where
  name := "people"
  source := { kind := "sqlite", connection := none, tables := ["person"], joins := [] }
  entities := [{
    name := "Person"
    names := ["person", "people"]
    table := "person"
    identifiers := ["id"]
    attributes := [("age", {
      names := ["age", "ages"]
      types := ["metric"]
      units := none
      source := { table := "person", columns := ["age"], joins := [] }
      nullHandling := none
      nullValue := none
      rounding := none })] }]
  relationships := []

/-- Returns the average age, first negated as a predicate and then compared. -/
def averageTwice : Entries String String :=
  [("|1|", "(retrieve_entity Person)"), ("|2|", "(retrieve_attribute |1| age)"),
    ("|3|", "(average |2|)"), ("|4|", "(not |3|)"), ("|5|", "(greaterthan |3| 30)"),
    ("|6|", "(collect |3|)"), ("|7|", "(return |6| |4| |5|)")]

theorem exists_compiled_averageTwice :
    ∃ ring compiled, Ring.ofDocument peopleDocument = .ok ring ∧
      compile averageTwice ring {} = .ok compiled ∧ compiled.select.having.isSome = true ∧
      ∃ expr, compiled.select.filter = some expr ∧ expr.hasAggregate = true := by
  have runs : (Ring.ofDocument peopleDocument >>= fun ring => compile averageTwice ring {}).map
      (fun compiled => compiled.select.having.isSome &&
        compiled.select.filter.any Expr.hasAggregate) = .ok true := by
    decide +kernel
  obtain ⟨compiled, runs, clauses⟩ := map_eq_ok_iff.mp runs
  obtain ⟨ring, loads, compiles⟩ := bind_eq_ok_iff.mp runs
  rw [Bool.and_eq_true, Option.any_eq_true] at clauses
  exact ⟨ring, compiled, loads, compiles, clauses⟩

/-- Both predicates of this plan need an aggregate, and one of them is in the WHERE. -/
theorem compile_isSeparated_averageTwice :
    ∃ ring compiled, Ring.ofDocument peopleDocument = .ok ring ∧
      compile averageTwice ring {} = .ok compiled ∧ compiled.select.having.isSome = true ∧
      ∃ draft ∈ compiled.drafts, IsSeparated draft compiled.select := by
  obtain ⟨ring, compiled, loads, compiles, having, -⟩ := exists_compiled_averageTwice
  exact ⟨ring, compiled, loads, compiles, having, (compile_isSeparated compiles).1 _ .refl⟩

/-- A WHERE with an aggregate, and the predicate that was not noticed to need one. -/
theorem exists_filter_hasAggregate :
    (∃ ring compiled, Ring.ofDocument peopleDocument = .ok ring ∧
      compile averageTwice ring {} = .ok compiled ∧
      ∃ (select : Select) (expr : Expr), select.IsPart compiled.select ∧
        select.filter = some expr ∧ expr.hasAggregate = true) ∧
    ∃ predicate : Handle, predicate.containsAggregate = false ∧ predicate.HasAnalysisBelow := by
  constructor
  · obtain ⟨ring, compiled, loads, compiles, -, expr, isFilter, holds⟩ :=
      exists_compiled_averageTwice
    exact ⟨ring, compiled, loads, compiles, compiled.select, expr, .refl, isFilter, holds⟩
  · let average : Handle := .expression .average [.handle (.field "Person" "age")]
    have operand : average.IsOperand (.expression .negation [.handle average]) :=
      List.mem_singleton_self _
    exact ⟨.expression .negation [.handle average], rfl, average, .single operand, rfl⟩

end SemanticQuery
