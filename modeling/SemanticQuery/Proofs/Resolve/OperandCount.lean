import SemanticQuery.Proofs.Resolve.Failures

/-!
# The operands of analyses

A step of an analysis may have one argument more than the analysis is about, for a grouping, but no
check says which of its arguments are groupings.  Resolution reports a broken invariant where the
others are not as many as the analysis is about, and for no other reason.
-/

namespace SemanticQuery

open Sql

variable {plan : Plan}

/-- The arguments of an analysis are its operands and its groupings. -/
theorem Plan.operandCount_add_groupings {step : Step}
    (analysis : step.operation.category = .analysis) :
    plan.operandCount step + (step.arguments.filter plan.isGrouping).length =
      step.arguments.length := by
  rw [operandCount, if_pos (by simp [Operation.isAnalysis, analysis]), ← List.countP_eq_length_filter,
    ← List.countP_eq_length_filter, Nat.add_comm, List.length_eq_countP_add_countP plan.isGrouping]
  simp

/-- A step of an analysis has the arguments that the analysis is about and at most one more. -/
theorem Plan.IsArranged.analysis_bounds (arranged : plan.IsArranged) {step : Step}
    (member : step ∈ plan.steps) (analysis : step.operation.category = .analysis) :
    step.operation.analysedCount ≤ step.arguments.length ∧
      step.arguments.length ≤ step.operation.analysedCount + 1 := by
  obtain ⟨least, most⟩ := arranged.bounds step member
  have limits : step.operation.minArguments = step.operation.analysedCount ∧
      step.operation.maxArguments = some (step.operation.analysedCount + 1) := by
    revert analysis
    cases step.operation <;> decide
  exact ⟨limits.1 ▸ least, most _ limits.2⟩

/-- An analysis that resolves has as many operands as it is about. -/
theorem Handle.length_of_resolve {scope : Scope} {operation : Operation} {operands : List Operand}
    (analysis : operation.category = .analysis)
    (noDirection : ∀ direction, .direction direction ∉ operands) {resolved : Resolved}
    (found : (Handle.expression operation operands).resolve scope = .ok resolved) :
    operands.length = operation.analysedCount := by
  rw [Handle.resolve, if_neg] at found
  · obtain ⟨-, -, found⟩ := bind_eq_ok_iff.mp found
    obtain ⟨results, resultsOk, applied⟩ := bind_eq_ok_iff.mp found
    obtain ⟨result, compiled, -⟩ := bind_eq_ok_iff.mp applied
    have demands : operation.Demands (results.map (·.expr)) operation.analysedCount
        (operation.compile scope.dialect (results.map (·.expr))) :=
      Operation.demands_of_analysis analysis
    rcases demands with ⟨fits, -⟩ | ⟨-, refused⟩
    · rw [← Operand.length_resolveAll noDirection resultsOk, ← fits, List.length_map]
    · rw [refused] at compiled
      cases compiled
  · rintro rfl
    cases analysis

/-- No analysis that occurs in a drawn handle has a direction among its operands. -/
theorem Handle.IsDrawn.noDirection_of_occurs {built : List Draft} {handle : Handle}
    (drawn : handle.IsDrawn plan built) {operation : Operation} {operands : List Operand}
    (occurs : (Handle.expression operation operands).Occurs handle)
    (analysis : operation.category = .analysis) (direction : Direction) :
    .direction direction ∉ operands := by
  induction drawn with
  | field | column =>
      rcases Relation.ReflTransGen.cases_tail occurs with same | ⟨_, -, impossible⟩
      · cases same
      · cases impossible
  | applied _ _ _ noDirection _ ih =>
      rcases Relation.ReflTransGen.cases_tail occurs with same | ⟨inner, path, operand⟩
      · cases same
        exact noDirection direction
      · exact ih inner operand path
  | @rowNumber pairs _ ih =>
      rcases Relation.ReflTransGen.cases_tail occurs with same | ⟨inner, path, operand⟩
      · cases same
        cases analysis
      · change .handle inner ∈ Operand.keys pairs at operand
        obtain ⟨pair, member, isInner⟩ := List.mem_flatMap.mp operand
        obtain rfl : inner = pair.1 := by simpa using isInner
        exact ih pair member path

/-- Every draft that was resolved has a query. -/
theorem exists_query_of_resolveDrafts {ring : Ring} {settings : Settings} {drafts : List Draft}
    {resolution : Resolution} (resolves : resolveDrafts ring settings drafts = .ok resolution) :
    ∀ draft ∈ drafts, ∃ (compilation : Compilation) (select : Select) (resolved : Draft),
      compilation.query draft = .ok (select, resolved) := by
  obtain ⟨⟨compilation, resolved⟩, run, -⟩ := bind_eq_ok_iff.mp resolves
  refine foldlM_keeps_prefix (fun before (_ : Compilation × List Draft) => ∀ draft ∈ before,
    ∃ (compilation : Compilation) (select : Select) (resolved : Draft),
      compilation.query draft = .ok (select, resolved)) ?_ nofun run
  intro before draft later state after _ earlier added other member
  rcases List.mem_append.mp member with known | last
  · exact earlier other known
  · rw [List.mem_singleton.mp last]
    obtain ⟨⟨select, resolved⟩, found, -⟩ := bind_eq_ok_iff.mp added
    exact ⟨state.1, select, resolved, found⟩

/-- Resolution of a plan's drafts reports a broken invariant only for a step of an analysis whose
operands, the arguments that are no groupings, are not as many as the analysis is about.  Drafts in
which such an analysis occurs are never resolved. -/
theorem resolveDrafts_counts_operands {document : Document} {ring : Ring}
    (loads : Ring.ofDocument document = .ok ring) {raw : Entries String String}
    (parsed : Plan.parse raw = .ok plan) {drafts : List Draft} (drafted : plan.drafts = .ok drafts)
    (settings : Settings) :
    (∀ step ∈ plan.steps, step.operation.category = .analysis →
      step.operation.analysedCount ≤ step.arguments.length ∧
      step.arguments.length ≤ step.operation.analysedCount + 1 ∧
      (plan.operandCount step = step.operation.analysedCount ↔
        (step.arguments.filter plan.isGrouping).length =
          step.arguments.length - step.operation.analysedCount)) ∧
      (∀ error, resolveDrafts ring settings drafts = .error error → error.kind = .internal →
        ∃ step ∈ plan.steps, step.operation.category = .analysis ∧
          plan.operandCount step ≠ step.operation.analysedCount ∧
          ∃ operands : List Expr, operands.length = plan.operandCount step ∧
            error = step.operation.wrongCount operands step.operation.analysedCount) ∧
      ∀ resolution, resolveDrafts ring settings drafts = .ok resolution →
        ∀ draft ∈ drafts, ∀ handle ∈ draft.handles, ∀ operation operands,
          (Handle.expression operation operands).Occurs handle → operation.category = .analysis →
          operands.length = operation.analysedCount := by
  have arranged := Plan.isArranged_of_parse parsed
  refine ⟨?_, ?_, ?_⟩
  · intro step member analysis
    obtain ⟨least, most⟩ := arranged.analysis_bounds member analysis
    have whole := plan.operandCount_add_groupings analysis
    refine ⟨least, most, ?_⟩
    omega
  · intro error failed internal
    cases arranged.failure_of_resolveDrafts drafted (Ring.isComplete_of_ofDocument loads) failed with
    | unknownEntity | unknownAttribute | noJoinPath | semanticTypeMismatch | strandedJoin
    | noSource => cases internal
    | @wrongCount step member analysis operands count misfit =>
        exact ⟨step, member, analysis, count ▸ misfit, operands, count, rfl⟩
  · intro resolution resolves draft member handle listed operation operands occurs analysis
    obtain ⟨before, later, whole⟩ := List.append_of_mem member
    have drawn := plan.areDrawn_of_drafts drafted before draft later whole
    obtain ⟨compilation, select, resolved, found⟩ :=
      exists_query_of_resolveDrafts resolves draft member
    obtain ⟨results, handlesOk, -⟩ := (Compilation.evaluates_of_query found).results
    obtain ⟨result, -, handleOk⟩ := exists_result_of_mem_mapM handlesOk listed
    obtain ⟨_, innerOk, -⟩ := Handle.exists_resolve_of_occurs occurs handleOk
    exact Handle.length_of_resolve analysis
      ((drawn.handles handle listed).noDirection_of_occurs occurs analysis) innerOk

/-- Here the average of the first subplan, which the second one reads, has the one operand that it is
about. -/
theorem resolveDrafts_counts_operands_aboveAverage :
    ∃ ring plan drafts, Ring.ofDocument (staffDocument "employee_badge") = .ok ring ∧
      Plan.parse aboveAverage = .ok plan ∧ plan.drafts = .ok drafts ∧
      (∃ resolution, resolveDrafts ring {} drafts = .ok resolution) ∧
      (∃ draft ∈ drafts, .expression .average [.handle (.field "Employee" "salary")] ∈ draft.handles) ∧
      ∀ draft ∈ drafts, ∀ handle ∈ draft.handles, ∀ operation operands,
        (Handle.expression operation operands).Occurs handle → operation.category = .analysis →
        operands.length = operation.analysedCount := by
  have runs : (do
      let ring ← Ring.ofDocument (staffDocument "employee_badge")
      let drafts ← Plan.parse aboveAverage >>= Plan.drafts
      (resolveDrafts ring {} drafts).map fun _ => decide (∃ draft ∈ drafts,
        .expression .average [.handle (.field "Employee" "salary")] ∈ draft.handles)) =
        Except.ok true := by
    decide +kernel
  obtain ⟨ring, loads, runs⟩ := bind_eq_ok_iff.mp runs
  obtain ⟨drafts, drafted, runs⟩ := bind_eq_ok_iff.mp runs
  obtain ⟨plan, parsed, drafted⟩ := bind_eq_ok_iff.mp drafted
  obtain ⟨resolution, resolves, average⟩ := map_eq_ok_iff.mp runs
  obtain ⟨-, -, counted⟩ := resolveDrafts_counts_operands loads parsed drafted {}
  exact ⟨ring, plan, drafts, loads, parsed, drafted, ⟨resolution, resolves⟩, of_decide_eq_true average,
    counted resolution resolves⟩

/-- A plan with drafts for which resolution reports a broken invariant. -/
theorem exists_resolveDrafts_internal :
    ∃ ring plan drafts error, Ring.ofDocument (staffDocument "employee_badge") = .ok ring ∧
      Plan.parse averageOfTwo = .ok plan ∧ plan.drafts = .ok drafts ∧
      resolveDrafts ring {} drafts = .error error ∧ error.kind = .internal ∧
      error.message = "average compiled with 2 operand(s), expected 1" := by
  have runs : (do
      let ring ← Ring.ofDocument (staffDocument "employee_badge")
      let drafts ← Plan.parse averageOfTwo >>= Plan.drafts
      match resolveDrafts ring {} drafts with
      | .error error => pure (some (error.kind, error.message))
      | .ok _ => pure none) =
        Except.ok (some (.internal, "average compiled with 2 operand(s), expected 1")) := by
    decide +kernel
  obtain ⟨ring, loads, runs⟩ := bind_eq_ok_iff.mp runs
  obtain ⟨drafts, drafted, runs⟩ := bind_eq_ok_iff.mp runs
  obtain ⟨plan, parsed, drafted⟩ := bind_eq_ok_iff.mp drafted
  split at runs
  · rename_i error failed
    obtain ⟨internal, message⟩ := Prod.mk.inj (Option.some.inj (Except.ok.inj runs))
    exact ⟨ring, plan, drafts, error, loads, parsed, drafted, failed, internal, message⟩
  · cases runs

end SemanticQuery
