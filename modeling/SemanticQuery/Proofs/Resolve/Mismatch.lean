import SemanticQuery.Proofs.Draft.Failures
import SemanticQuery.Proofs.Draft.Provenance
import SemanticQuery.Proofs.Plan.Formation
import SemanticQuery.Proofs.Resolve.Failures
import SemanticQuery.Proofs.Resolve.Validation

/-!
# The steps of type mismatches

Every expression that is resolved for a draft is noted for a step of its subplan that applies its
operation.  Only the check of an expression's operands reports a type mismatch, and it reports it for
the step that the expression is noted for.  So the step of a mismatch is one of the plan.
-/

namespace SemanticQuery

open Sql

theorem Error.code_eq_iff_isMismatch (error : Error) :
    error.code = "ONTOLOGY_004" ↔ error.IsMismatch := by
  cases error <;> simp [code, classification, IsMismatch]

@[simp]
theorem Error.not_isMismatch {error : Error}
    (differs : ∀ step operation operand expected found,
      error ≠ .semanticTypeMismatch step operation operand expected found) :
    ¬ error.IsMismatch := by
  intro mismatch
  obtain ⟨step, operation, operand, expected, found, same⟩ := mismatch.exists_eq
  exact differs step operation operand expected found same

@[simp]
theorem Error.not_isMismatch_invariant (reason : String) : ¬ (Error.invariant reason).IsMismatch := by
  simp [invariant]

@[simp]
theorem Step.not_isMismatch_invalidArgument (step : Step) (position : Nat) (message : String) :
    ¬ (step.invalidArgument position message).IsMismatch := by
  simp [invalidArgument]

variable {α : Type}

/-- The type mismatches among the failures of a computation have a property. -/
abbrev MistypesOnly (property : Error → Prop) (outcome : Except Error α) : Prop :=
  FailsOnly (fun error => error.IsMismatch → property error) outcome

abbrev NeverMistypes (outcome : Except Error α) : Prop :=
  MistypesOnly (fun _ => False) outcome

theorem NeverMistypes.mistypesOnly {property : Error → Prop} {outcome : Except Error α}
    (never : NeverMistypes outcome) : MistypesOnly property outcome :=
  FailsOnly.mono never fun _ fails mismatch => (fails mismatch).elim

/-! ## Plans -/

namespace Step

theorem neverMistypes_checkArity (step : Step) : NeverMistypes step.checkArity := by
  unfold checkArity
  dsimp only
  split <;> simp

theorem neverMistypes_checkShape (step : Step) : NeverMistypes step.checkShape := by
  have references : NeverMistypes step.checkReferencesOnly := by
    unfold checkReferencesOnly
    split <;> simp
  have keys : NeverMistypes step.checkSort := by
    unfold checkSort
    split
    · simp
    · split <;> simp
  unfold checkShape
  split
  case h_1 | h_2 | h_8 => split <;> simp
  case h_3 | h_4 | h_5 | h_6 => exact references
  case h_7 => exact keys
  case h_9 => exact FailsOnly.ok ()

theorem neverMistypes_parse (reference : StepRef) (text : String) :
    NeverMistypes (Step.parse reference text) := by
  unfold Step.parse
  split
  · simp
  · split
    · simp
    · refine FailsOnly.bind (neverMistypes_checkArity _) fun _ _ => ?_
      exact FailsOnly.bind (neverMistypes_checkShape _) fun _ _ => FailsOnly.ok _

end Step

namespace Plan

theorem neverMistypes_parseSteps (raw : Entries String String) :
    NeverMistypes (parseSteps raw) := by
  refine FailsOnly.foldlM (fun steps entry _ => ?_) []
  unfold addStep
  split
  · simp
  · split
    · simp
    · exact FailsOnly.bind (Step.neverMistypes_parse _ _) fun _ _ => FailsOnly.ok _

/-- If no problem of a step is a mismatch, the first problem among steps is none. -/
theorem not_isMismatch_of_findSome? {problem? : Step → Option Error} {steps : List Step}
    {error : Error} (never : ∀ step error, problem? step = some error → ¬ error.IsMismatch)
    (found : steps.findSome? problem? = some error) : ¬ error.IsMismatch := by
  obtain ⟨step, -, isProblem⟩ := List.exists_of_findSome?_eq_some found
  exact never step error isProblem

/-- None of the causes for which steps are refused is a mismatch. -/
theorem neverMistypes_ofSteps {steps : List Step} (distinct : (steps.map (·.reference)).Nodup) :
    NeverMistypes (ofSteps steps) := by
  refine (failsOnly_ofSteps distinct).mono fun error refusal => ?_
  cases refusal <;> simp

theorem neverMistypes_parse (raw : Entries String String) : NeverMistypes (parse raw) := by
  refine FailsOnly.bind (neverMistypes_parseSteps raw) fun steps read => ?_
  split
  · rename_i found
    refine FailsOnly.error_iff.mpr (not_isMismatch_of_findSome? ?_ found)
    intro step error misdirected
    unfold targetProblem? at misdirected
    split at misdirected
    · split at misdirected
      · split at misdirected
        · cases misdirected
        · cases misdirected
          simp
      · cases misdirected
    · cases misdirected
  · exact neverMistypes_ofSteps (areParsed_of_parseSteps read).distinct

theorem IsArranged.neverMistypes_drafts {plan : Plan} (arranged : plan.IsArranged) :
    NeverMistypes plan.drafts := by
  intro error failed
  cases arranged.failure_of_drafts failed <;> simp [Findings.unresolved]

end Plan

/-! ## Look-ups -/

namespace Ring

variable {ring : Ring}

theorem neverMistypes_entity (name : String) : NeverMistypes (ring.entity name) := by
  intro error failed
  simp [eq_unknownEntity failed]

theorem neverMistypes_attributeOf (entityName name : String) :
    NeverMistypes (ring.attributeOf entityName name) := by
  intro error failed
  rcases attributeOf_error_cases failed with rfl | rfl <;> simp

theorem neverMistypes_attributeJoins (entityName name : String) :
    NeverMistypes (ring.attributeJoins entityName name) := by
  intro error failed
  rcases attributeJoins_error_cases failed with rfl | ⟨_, rfl⟩ <;> simp

theorem neverMistypes_physicalColumn (table column : String) :
    NeverMistypes (ring.physicalColumn table column) := by
  unfold physicalColumn
  split <;> simp

theorem neverMistypes_joinsBetween (first second : String) :
    NeverMistypes (ring.joinsBetween first second) := by
  intro error failed
  rcases joinsBetween_error_cases failed with ⟨_, rfl⟩ | rfl <;> simp

theorem neverMistypes_join (name : String) : NeverMistypes (ring.join name) := by
  unfold join
  split <;> simp

theorem neverMistypes_attach (subplan : SubplanId) (names tables : NameSet) :
    NeverMistypes (ring.attach subplan names tables).1 := by
  unfold attach
  split
  · rename_i cause missing
    have never : NeverMistypes (names.mapM ring.join) :=
      FailsOnly.mapM fun name _ => neverMistypes_join name
    exact FailsOnly.error_iff.mpr (never cause missing)
  · split <;> simp

end Ring

namespace Operation

variable {operation : Operation} {operands : List Expr}

theorem neverMistypes_withOne (build : Expr → Expr) :
    NeverMistypes (operation.withOne operands build) := by
  unfold withOne
  split <;> simp [wrongCount]

theorem neverMistypes_withTwo (build : Expr → Expr → Expr) :
    NeverMistypes (operation.withTwo operands build) := by
  unfold withTwo
  split <;> simp [wrongCount]

theorem neverMistypes_folded (operator : Operator) :
    NeverMistypes (operation.folded operator operands) := by
  unfold folded
  split <;> simp [noOperands]

theorem neverMistypes_connected (connective : Connective) :
    NeverMistypes (operation.connected connective operands) := by
  unfold connected
  split <;> simp [noOperands]

theorem neverMistypes_compile (operation : Operation) (dialect : Dialect) (operands : List Expr) :
    NeverMistypes (operation.compile dialect operands) := by
  cases operation with
  | equals | lessThan | atMost | greaterThan | atLeast | contains | percentChange | duration
  | correlation => exact neverMistypes_withTwo _
  | conjunction | disjunction => exact neverMistypes_connected _
  | add | subtract | multiply | divide | percentage => exact neverMistypes_folded _
  | negation | squareRoot | absolute | average | count | countUnique | maximum | minimum | getOne
  | sum | concatenation => exact neverMistypes_withOne _
  | median | deviation => cases dialect <;> exact neverMistypes_withOne _
  | retrieveEntity | retrieveAttribute | groupBy | sort | limit | rowNumber | collect | output =>
      simp [compile]

end Operation

namespace Scope

variable {scope : Scope}

theorem neverMistypes_field (entityName name : String) :
    NeverMistypes (scope.field entityName name) := by
  refine FailsOnly.bind (Ring.neverMistypes_entity entityName) fun entity _ => ?_
  dsimp only
  split
  · split <;> simp
  · refine FailsOnly.bind (Ring.neverMistypes_attributeOf entityName _) fun a _ => ?_
    refine FailsOnly.bind (Ring.neverMistypes_attributeJoins entityName _) fun joins _ => ?_
    split
    · simp
    · exact FailsOnly.bind (Ring.neverMistypes_physicalColumn _ _) fun _ _ => FailsOnly.ok _

theorem neverMistypes_declaredTypes (entityName name : String) :
    NeverMistypes (scope.declaredTypes entityName name) := by
  intro error failed
  rcases declaredTypes_error_cases failed with rfl | ⟨_, rfl⟩ <;> simp

theorem neverMistypes_column (subplan : SubplanId) (name : String) :
    NeverMistypes (scope.column subplan name) := by
  unfold column
  split <;> simp

theorem neverMistypes_apply (operation : Operation) (operands : List Resolved) :
    NeverMistypes (scope.apply operation operands) := by
  refine FailsOnly.bind (Operation.neverMistypes_compile _ _ _) fun _ _ => ?_
  dsimp only
  split <;> simp

end Scope

/-! ## Handles -/

namespace Handle

/-- A mismatch that is reported for an expression that occurs in a handle. -/
def Mistypes (origins : Entries Handle StepRef) (handle : Handle) (error : Error) : Prop :=
  ∃ operation operands, (Handle.expression operation operands).Occurs handle ∧
    error.IsMismatchOf origins operation operands

theorem Mistypes.of_operand {origins : Entries Handle StepRef} {inner handle : Handle} {error : Error}
    (mistypes : inner.Mistypes origins error) (isOperand : IsOperand inner handle) :
    handle.Mistypes origins error := by
  obtain ⟨operation, operands, occurs, mismatch⟩ := mistypes
  exact ⟨operation, operands, occurs.tail isOperand, mismatch⟩

theorem mistypesOnly_checkTypes (scope : Scope) (operation : Operation) (operands : List Operand) :
    MistypesOnly ((Handle.expression operation operands).Mistypes scope.origins)
      (scope.checkTypes operation operands) := by
  intro error failed isMismatch
  rcases Scope.failsOnly_checkTypes error failed with mismatch | ⟨entityName, name, -, unknown⟩
  · exact ⟨operation, operands, .refl, mismatch⟩
  · exact (Scope.neverMistypes_declaredTypes entityName name error unknown isMismatch).elim

/-- Resolving a handle reports mismatches only for expressions that occur in it. -/
theorem mistypesOnly_resolve (scope : Scope) (handle : Handle) :
    MistypesOnly (handle.Mistypes scope.origins) (handle.resolve scope) := by
  induction handle using Handle.induct with
  | passes handle ih =>
      cases handle with
      | field entityName name =>
          rw [Handle.resolve]
          exact (Scope.neverMistypes_field entityName name).mistypesOnly
      | column subplan name origin =>
          rw [Handle.resolve]
          exact (Scope.neverMistypes_column subplan name).mistypesOnly
      | expression operation operands =>
          have each (inner : Handle) (member : .handle inner ∈ operands) :
              MistypesOnly ((Handle.expression operation operands).Mistypes scope.origins)
                (inner.resolve scope) :=
            FailsOnly.mono (ih inner member) fun _ mistypes isMismatch =>
              (mistypes isMismatch).of_operand member
          rw [Handle.resolve]
          split
          · refine FailsOnly.bind (Operand.failsOnly_resolveTerms each ?_) fun _ _ => FailsOnly.ok _
            simp
          · refine FailsOnly.bind (mistypesOnly_checkTypes scope operation operands) fun _ _ => ?_
            refine FailsOnly.bind (Operand.failsOnly_resolveAll each) fun results _ => ?_
            exact (Scope.neverMistypes_apply operation results).mistypesOnly

end Handle

/-! ## Queries -/

def Draft.Mistypes (draft : Draft) (error : Error) : Prop :=
  ∃ handle ∈ draft.handles, handle.Mistypes draft.origins error

namespace Compilation

variable {compilation : Compilation} {draft : Draft}

theorem mistypesOnly_resolve {handle : Handle} (member : handle ∈ draft.handles) :
    MistypesOnly draft.Mistypes (handle.resolve (compilation.scope draft)) :=
  FailsOnly.mono (handle.mistypesOnly_resolve (compilation.scope draft))
    fun _ mistypes isMismatch => ⟨handle, member, mistypes isMismatch⟩

theorem mistypesOnly_resolveOption {handle : Option Handle}
    (listed : ∀ predicate ∈ handle, predicate ∈ draft.handles) :
    MistypesOnly draft.Mistypes (resolveOption (compilation.scope draft) handle) := by
  cases handle with
  | none => exact FailsOnly.ok _
  | some predicate =>
      exact FailsOnly.bind (mistypesOnly_resolve (listed predicate rfl)) fun _ _ => FailsOnly.ok _

theorem neverMistypes_joinsAmong (ring : Ring) (entities : List String) :
    NeverMistypes (joinsAmong ring entities) := by
  refine FailsOnly.bind ?_ fun _ _ => FailsOnly.ok _
  exact FailsOnly.mapM fun pair _ => Ring.neverMistypes_joinsBetween pair.1 pair.2

theorem neverMistypes_derived (id : SubplanId) : NeverMistypes (compilation.derived id) := by
  unfold derived
  split <;> simp

theorem neverMistypes_origin : NeverMistypes (compilation.origin draft) := by
  unfold origin
  split
  · exact FailsOnly.bind (Ring.neverMistypes_entity _) fun _ _ => FailsOnly.ok _
  · exact FailsOnly.bind (neverMistypes_derived _) fun _ _ => FailsOnly.ok _
  · simp

theorem neverMistypes_crossJoin (id : SubplanId) : NeverMistypes (compilation.crossJoin id) :=
  FailsOnly.bind (neverMistypes_derived id) fun _ _ => FailsOnly.ok _

theorem neverMistypes_columnExpr (columns : Entries String Expr) (name : String) :
    NeverMistypes (columnExpr draft columns name) := by
  unfold columnExpr
  split <;> simp

/-- The query of a draft reports mismatches only for expressions of the draft. -/
theorem mistypesOnly_query (compilation : Compilation) (draft : Draft) :
    MistypesOnly draft.Mistypes (compilation.query draft) := by
  unfold query
  split
  · simp
  have filters : ∀ predicate ∈ draft.filter, predicate ∈ draft.handles :=
    fun predicate isFilter => Draft.mem_handles.mpr (.inr (.inl isFilter))
  have havings : ∀ predicate ∈ draft.having, predicate ∈ draft.handles :=
    fun predicate isHaving => Draft.mem_handles.mpr (.inr (.inr isHaving))
  refine FailsOnly.bind (FailsOnly.mapM fun field member => ?_) fun fields _ => ?_
  · have listed : field.2 ∈ draft.handles :=
      Draft.mem_handles.mpr (.inl (List.mem_map_of_mem member))
    exact FailsOnly.bind (mistypesOnly_resolve listed) fun _ _ => FailsOnly.ok _
  refine FailsOnly.bind (mistypesOnly_resolveOption filters) fun filter _ => ?_
  refine FailsOnly.bind (mistypesOnly_resolveOption havings) fun having _ => ?_
  -- All that needs types is resolved here.
  refine NeverMistypes.mistypesOnly ?_
  refine FailsOnly.bind (neverMistypes_joinsAmong _ _) fun between _ => ?_
  refine FailsOnly.bind neverMistypes_origin fun source _ => ?_
  refine FailsOnly.bind (Ring.neverMistypes_attach _ _ _) fun attached _ => ?_
  refine FailsOnly.bind (FailsOnly.mapM fun id _ => neverMistypes_crossJoin id) fun crossed _ => ?_
  refine FailsOnly.bind (FailsOnly.mapM fun name _ => ?_) fun columns _ => ?_
  · exact FailsOnly.bind (neverMistypes_columnExpr _ name) fun _ _ => FailsOnly.ok _
  refine FailsOnly.bind (FailsOnly.mapM fun name _ => neverMistypes_columnExpr _ name) fun _ _ => ?_
  refine FailsOnly.bind (FailsOnly.mapM fun key _ => ?_) fun _ _ => FailsOnly.ok _
  exact FailsOnly.bind (neverMistypes_columnExpr _ key.column) fun _ _ => FailsOnly.ok _

end Compilation

/-- Resolving drafts reports mismatches only for expressions of one of them. -/
theorem mistypesOnly_resolveDrafts (ring : Ring) (settings : Settings) (drafts : List Draft) :
    MistypesOnly (fun error => ∃ draft ∈ drafts, draft.Mistypes error)
      (resolveDrafts ring settings drafts) := by
  refine FailsOnly.bind (FailsOnly.foldlM (fun state draft member => ?_) _) fun compiled _ => ?_
  · refine FailsOnly.bind ?_ fun _ _ => FailsOnly.ok _
    exact FailsOnly.mono (state.1.mistypesOnly_query draft) fun _ mistypes isMismatch =>
      ⟨draft, member, mistypes isMismatch⟩
  · dsimp only
    split <;> simp

/-! ## The steps of expressions -/

/-- Every expression that occurs in what a draft evaluates is noted for a step of the draft's subplan
that applies its operation. -/
def Draft.NotesExpressions (plan : Plan) (draft : Draft) : Prop :=
  ∃ subplan ∈ plan.subplans, subplan.id = draft.id ∧ ∀ handle ∈ draft.handles,
    ∀ operation operands, (Handle.expression operation operands).Occurs handle →
      ∃ reference step, draft.origins.get? (.expression operation operands) = some reference ∧
        subplan.has reference = true ∧ plan.step? reference = some step ∧
        step.operation = operation

theorem Plan.IsDivided.notesExpressions_of_drafts {plan : Plan} (divided : plan.IsDivided)
    {drafts : List Draft} (drafted : plan.drafts = .ok drafts) {draft : Draft}
    (member : draft ∈ drafts) : draft.NotesExpressions plan := by
  obtain ⟨before, later, whole⟩ := List.append_of_mem member
  obtain ⟨evaluated, ⟨subplan, listed, same, notes⟩, -⟩ :=
    divided.areTraced_of_drafts drafted before draft later whole
  refine ⟨subplan, listed, same, ?_⟩
  intro handle isEvaluated operation operands occurs
  obtain ⟨reference, noted⟩ := Option.isSome_iff_exists.mp (evaluated handle isEvaluated _ occurs)
  obtain ⟨step, _, found, holds, applied⟩ := notes _ reference noted
  cases applied
  exact ⟨reference, step, noted, holds, found, rfl⟩

/-- A mismatch that is reported for an expression of a draft names the step that it is noted for. -/
theorem Draft.NotesExpressions.exists_step {plan : Plan} {draft : Draft} {error : Error}
    (notes : draft.NotesExpressions plan) (mistypes : draft.Mistypes error) :
    ∃ step ∈ plan.steps, error.diagnostic.step = some step.reference.text ∧
      error.diagnostic.operation = some step.operation.name := by
  obtain ⟨handle, evaluated, operation, operands, occurs, operand, expected, found, rfl⟩ := mistypes
  obtain ⟨subplan, -, -, each⟩ := notes
  obtain ⟨reference, step, noted, -, isStep, rfl⟩ := each handle evaluated operation operands occurs
  refine ⟨step, List.mem_of_find?_eq_some isStep, ?_, rfl⟩
  rw [noted, ← Plan.reference_of_step? isStep]
  rfl

/-- Every expression that is resolved for a draft of a plan is noted for a step of its subplan with its
operation, and whenever compiling reports a type mismatch, it reports a step of the plan and the
operation of this step. -/
theorem compile_mismatch_names_step (raw : Entries String String) :
    (∀ plan drafts, Plan.parse raw = .ok plan → plan.drafts = .ok drafts →
      ∀ draft ∈ drafts, draft.NotesExpressions plan) ∧
    ∀ ring settings error, compile raw ring settings = .error error →
      error.code = "ONTOLOGY_004" →
      ∃ plan, Plan.parse raw = .ok plan ∧ ∃ step ∈ plan.steps,
        error.diagnostic.step = some step.reference.text ∧
        error.diagnostic.operation = some step.operation.name := by
  constructor
  · intro plan drafts parsed drafted draft member
    exact (Plan.isDivided_of_parse parsed).notesExpressions_of_drafts drafted member
  · intro ring settings error failed isMismatch
    rw [Error.code_eq_iff_isMismatch] at isMismatch
    rcases bind_eq_error_iff.mp failed with unread | ⟨plan, parsed, failed⟩
    · exact (Plan.neverMistypes_parse raw error unread isMismatch).elim
    rcases bind_eq_error_iff.mp failed with undrafted | ⟨drafts, drafted, failed⟩
    · have arranged := Plan.isArranged_of_parse parsed
      exact (arranged.neverMistypes_drafts error undrafted isMismatch).elim
    rcases bind_eq_error_iff.mp failed with unresolved | ⟨_, -, impossible⟩
    · obtain ⟨draft, member, mistypes⟩ :=
        mistypesOnly_resolveDrafts ring settings drafts error unresolved isMismatch
      have notes := (Plan.isDivided_of_parse parsed).notesExpressions_of_drafts drafted member
      exact ⟨plan, parsed, notes.exists_step mistypes⟩
    · cases impossible

/-- The average of identifiers is refused at the step that takes it. -/
theorem compile_mismatch_names_step_averageOf :
    ∃ ring plan drafts error, Ring.ofDocument (staffDocument "employee_badge") = .ok ring ∧
      Plan.parse (averageOf "id") = .ok plan ∧ plan.drafts = .ok drafts ∧
      (∃ draft ∈ drafts, .expression .average [.handle (.field "Employee" "id")] ∈ draft.handles) ∧
      (∀ draft ∈ drafts, draft.NotesExpressions plan) ∧
      compile (averageOf "id") ring {} = .error error ∧ error.code = "ONTOLOGY_004" ∧
      error.diagnostic.step = some "|3|" ∧ ∃ step ∈ plan.steps,
        error.diagnostic.step = some step.reference.text ∧
        error.diagnostic.operation = some step.operation.name := by
  have runs : (do
      let ring ← Ring.ofDocument (staffDocument "employee_badge")
      let drafts ← Plan.parse (averageOf "id") >>= Plan.drafts
      match compile (averageOf "id") ring {} with
      | .error error => pure (decide ((∃ draft ∈ drafts,
          .expression .average [.handle (.field "Employee" "id")] ∈ draft.handles) ∧
          error.code = "ONTOLOGY_004" ∧ error.diagnostic.step = some "|3|"))
      | .ok _ => pure false) = Except.ok true := by
    decide +kernel
  obtain ⟨ring, loads, runs⟩ := bind_eq_ok_iff.mp runs
  obtain ⟨drafts, drafted, runs⟩ := bind_eq_ok_iff.mp runs
  obtain ⟨plan, parsed, drafted⟩ := bind_eq_ok_iff.mp drafted
  split at runs
  · rename_i error failed
    obtain ⟨average, code, step⟩ := of_decide_eq_true (Except.ok.inj runs)
    obtain ⟨notes, names⟩ := compile_mismatch_names_step (averageOf "id")
    obtain ⟨other, parsedOther, named⟩ := names ring {} error failed code
    cases parsed.symm.trans parsedOther
    exact ⟨ring, plan, drafts, error, loads, parsed, drafted, average,
      notes plan drafts parsed drafted, failed, code, step, named⟩
  · cases runs

end SemanticQuery
