import SemanticQuery.Proofs.Draft.Sources
import SemanticQuery.Proofs.Plan.Arranged

/-!
# What visits find

A visit finds the field of its step, if the step has one, and nothing that was found is lost.  Since a
step is visited after whatever it depends on, a field that is looked up is missing only where the step
that is referred to has none.
-/

namespace SemanticQuery

namespace Operation

def producesField (operation : Operation) : Bool :=
  match operation.category with
  | .retrieval => operation = .retrieveAttribute
  | .predicate | .arithmetic | .analysis | .rowNumber => true
  | .aggregation | .sort | .limit | .collect | .output => false

def fieldless : List Operation :=
  [.retrieveEntity, .groupBy, .sort, .limit, .collect, .output]

theorem mem_fieldless {operation : Operation} (fieldless : operation.producesField = false) :
    operation ∈ Operation.fieldless := by
  cases operation <;> first | decide | cases fieldless

end Operation

/-! ## What was found -/

namespace Findings

variable {plan : Plan} {findings : Findings} {step : Step} {error : Error}

/-- Steps that were visited: a field was found for each that produces one, and keys for each sort. -/
def Cover (plan : Plan) (findings : Findings) (visited : List StepRef) : Prop :=
  ∀ reference ∈ visited, ∀ step, plan.step? reference = some step →
    (step.operation.producesField = true → (findings.handles.get? reference).isSome = true) ∧
      (step.operation = .sort → (findings.sorts.get? reference).isSome = true)

theorem Cover.mono {visited fewer : List StepRef} (cover : findings.Cover plan visited)
    (listed : fewer ⊆ visited) : findings.Cover plan fewer :=
  fun reference member => cover reference (listed member)

theorem eq_unresolved_of_handle {target : StepRef}
    (failed : findings.handle step target = .error error) :
    findings.handles.get? target = none ∧ error = unresolved step target := by
  unfold Findings.handle at failed
  split at failed
  · cases failed
  · rename_i missing
    cases failed
    exact ⟨missing, rfl⟩

/-- A look-up among covered steps fails for a step that produces no field. -/
theorem Cover.fieldless_of_handle {visited : List StepRef} (cover : findings.Cover plan visited)
    {target : StepRef} (member : target ∈ visited) {other : Step}
    (found : plan.step? target = some other)
    (failed : findings.handle step target = .error error) :
    error = unresolved step target ∧ other.operation ∈ Operation.fieldless := by
  obtain ⟨missing, same⟩ := eq_unresolved_of_handle failed
  refine ⟨same, Operation.mem_fieldless ?_⟩
  rw [← Bool.not_eq_true]
  intro produces
  have isSome := (cover target member other found).1 produces
  rw [missing] at isSome
  cases isSome

/-- Operands are missed only as one of the references among the arguments is. -/
theorem failsOnly_operands {property : Error → Prop} {included : StepRef → Bool}
    {arguments : List Argument}
    (each : ∀ target ∈ arguments.filterMap Argument.reference?,
      FailsOnly property (findings.handle step target)) :
    FailsOnly property (findings.operands step included arguments) := by
  induction arguments with
  | nil => exact FailsOnly.ok _
  | cons argument rest ih =>
      have others := ih fun target listed =>
        each target ((List.Sublist.filterMap _ (List.sublist_cons_self _ _)).subset listed)
      cases argument with
      | literal value =>
          rw [Findings.operands]
          exact FailsOnly.bind others fun _ _ => FailsOnly.ok _
      | reference target =>
          rw [Findings.operands]
          split
          · refine FailsOnly.bind (each target List.mem_cons_self) fun _ _ => ?_
            exact FailsOnly.bind others fun _ _ => FailsOnly.ok _
          · exact others

/-- The keys of a sort whose arguments were accepted: each reference with the direction written behind
it, and never one that is put in for it. -/
theorem sortPairs_eq_mapM {arguments : List Argument} {keys : List (StepRef × Direction)}
    (areKeys : Argument.AreKeys arguments keys) :
    findings.sortPairs step arguments =
      keys.mapM fun key => (findings.handle step key.1).map fun found => (found, key.2) := by
  induction areKeys with
  | nil => rfl
  | cons target word isRead others ih =>
      rw [Findings.sortPairs, ih, List.mapM_cons]
      cases findings.handle step target with
      | error cause => rfl
      | ok found =>
          simp only [Argument.content, isRead, Option.getD_some]
          rfl

end Findings

/-- What a sort refers to are its keys. -/
theorem Argument.AreKeys.references_eq {arguments : List Argument}
    {keys : List (StepRef × Direction)} (areKeys : Argument.AreKeys arguments keys) :
    arguments.filterMap Argument.reference? = keys.map (·.1) := by
  induction areKeys with
  | nil => rfl
  | cons target word isRead others ih => exact congrArg (target :: ·) ih

namespace Draft

variable {plan : Plan} {built : List Draft} {subplan : Subplan} {findings after : Findings}
  {draft result : Draft} {step : Step} {error : Error}

/-- A visit forgets nothing that was found. -/
theorem Visits.grows (visits : Visits plan built subplan findings draft step after result)
    (reference : StepRef) :
    ((findings.handles.get? reference).isSome = true →
        (after.handles.get? reference).isSome = true) ∧
      ((findings.sorts.get? reference).isSome = true →
        (after.sorts.get? reference).isSome = true) := by
  cases visits with
  | entity | groupBy | limit | collect | inner | root => exact ⟨fun known => known, fun known => known⟩
  | retrieval | operation | analysis | rowNumber =>
      exact ⟨fun known => Entries.isSome_get?_put.mpr (.inr known), fun known => known⟩
  | sort => exact ⟨fun known => known, fun known => Entries.isSome_get?_put.mpr (.inr known)⟩

/-- A visit finds what its step stands for. -/
theorem Visits.finds (visits : Visits plan built subplan findings draft step after result) :
    (step.operation.producesField = true →
        (after.handles.get? step.reference).isSome = true) ∧
      (step.operation = .sort → (after.sorts.get? step.reference).isSome = true) := by
  have noSort (other : step.operation.category ≠ .sort) (isSort : step.operation = .sort) :
      (after.sorts.get? step.reference).isSome = true := by
    rw [isSort] at other
    exact absurd rfl other
  have noField (fieldless : step.operation.producesField = false)
      (produces : step.operation.producesField = true) :
      (after.handles.get? step.reference).isSome = true := by
    rw [fieldless] at produces
    cases produces
  cases visits with
  | entity operation =>
      exact ⟨noField (by rw [operation]; rfl), noSort (by rw [operation]; decide)⟩
  | retrieval category | analysis category | rowNumber category =>
      exact ⟨fun _ => Entries.isSome_get?_put.mpr (.inl rfl), noSort (by simp [category])⟩
  | operation category =>
      refine ⟨fun _ => Entries.isSome_get?_put.mpr (.inl rfl), noSort ?_⟩
      rcases category with category | category <;> simp [category]
  | sort category =>
      exact ⟨noField (by simp [Operation.producesField, category]),
        fun _ => Entries.isSome_get?_put.mpr (.inl rfl)⟩
  | groupBy category | limit category | collect category | inner category | root category =>
      exact ⟨noField (by simp [Operation.producesField, category]), noSort (by simp [category])⟩

theorem Visits.cover (visits : Visits plan built subplan findings draft step after result)
    (found : plan.step? step.reference = some step) {visited : List StepRef}
    (cover : findings.Cover plan visited) : after.Cover plan (visited ++ [step.reference]) := by
  intro reference member other isOther
  rcases List.mem_append.mp member with earlier | same
  · obtain ⟨field, keys⟩ := cover reference earlier other isOther
    obtain ⟨handles, sorts⟩ := visits.grows reference
    exact ⟨handles ∘ field, sorts ∘ keys⟩
  · obtain rfl := List.mem_singleton.mp same
    cases found.symm.trans isOther
    exact visits.finds

/-! ## Runs -/

theorem cover_visitRef {visited : List StepRef} {state after : Findings × Draft}
    {reference : StepRef} (cover : state.1.Cover plan visited)
    (run : visitRef plan built subplan state reference = .ok after) :
    after.1.Cover plan (visited ++ [reference]) := by
  obtain ⟨step, found, visits⟩ := exists_visits_of_visitRef run
  obtain rfl := Plan.reference_of_step? found
  exact visits.cover found cover

/-- Drafting a subplan covers its steps. -/
theorem cover_buildNext {visited : List StepRef} {state after : Findings × List Draft}
    (cover : state.1.Cover plan visited) (next : buildNext plan state subplan = .ok after) :
    after.1.Cover plan (visited ++ plan.stepsOf subplan) := by
  obtain ⟨⟨findings, draft⟩, run, same⟩ := bind_eq_ok_iff.mp next
  cases same
  refine foldlM_keeps_prefix (fun before (pair : Findings × Draft) =>
    pair.1.Cover plan (visited ++ before)) ?_ (by rwa [List.append_nil]) run
  intro before reference later state after _ cover run
  rw [← List.append_assoc]
  exact cover_visitRef cover run

/-- What a step of a subplan depends on was visited before it; return steps have nothing to be
found. -/
theorem cover_dependencies (arranged : plan.IsArranged) (listed : subplan ∈ plan.subplans)
    (member : step ∈ plan.steps) (holds : subplan.has step.reference = true)
    {before after : List StepRef} (whole : plan.stepsOf subplan = before ++ step.reference :: after)
    (cover : findings.Cover plan before) : findings.Cover plan step.dependencies := by
  intro target reads other found
  rcases arranged.divided.inside subplan listed step member holds target reads with inside | output
  · exact cover target (arranged.mem_before_of_reads member whole reads inside) other found
  · have isOutput : other.operation = .output := by
      rw [Plan.step?, Plan.stepIn?] at found
      rw [Subplan.isOutputIn, found, Option.any_some] at output
      exact of_decide_eq_true output
    rw [isOutput]
    constructor
    · intro impossible
      cases impossible
    · intro impossible
      cases impossible

end Draft

end SemanticQuery
