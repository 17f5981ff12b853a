import SemanticQuery.Proofs.Plan.Parsed
import SemanticQuery.Proofs.Renaming.Subplan

/-!
# Renaming the steps of a plan

A renamed raw plan is read as the renamed plan, or as none if the raw plan is read as none.
-/

namespace SemanticQuery.Plan

variable (newName : StepRef ↪ StepRef)

def rename (plan : Plan) : Plan where
  steps := plan.steps.map (Step.rename newName)
  graph := plan.graph.rename newName
  order := plan.order.map newName
  subplans := plan.subplans.map (Subplan.rename newName)
  terminal := newName plan.terminal
  outermost := plan.outermost

def renameRaw (raw : Entries String String) : Entries String String :=
  raw.map fun entry => (StepRef.renameKey newName entry.1, Token.renameText newName entry.2)

/-! ## Forming plans -/

@[simp] theorem stepIn?_rename (steps : List Step) (reference : StepRef) :
    stepIn? (steps.map (Step.rename newName)) (newName reference) =
      (stepIn? steps reference).map (Step.rename newName) := by
  simp only [stepIn?, List.find?_map, Function.comp_def, Step.reference_rename,
    newName.apply_eq_iff_eq]

theorem toOption_terminalOf_rename (graph : PlanGraph) (steps : List Step) :
    (terminalOf (graph.rename newName) (steps.map (Step.rename newName))).toOption =
      (terminalOf graph steps).toOption.map newName := by
  unfold terminalOf
  rw [PlanGraph.sinks_rename]
  match graph.sinks with
  | [] | _ :: _ :: _ => rfl
  | [sink] =>
      simp only [List.map_cons, List.map_nil, stepIn?_rename]
      cases stepIn? steps sink with
      | none => rfl
      | some step =>
          have output : (step.rename newName).isOutput = step.isOutput := rfl
          simp only [Option.map_some, output]
          split <;> rfl

theorem find?_root_rename (subplans : List Subplan) (terminal : StepRef) :
    ((subplans.map (Subplan.rename newName)).find? fun subplan => subplan.root = newName terminal) =
      (subplans.find? fun subplan => subplan.root = terminal).map (Subplan.rename newName) := by
  simp only [List.find?_map, Function.comp_def, Subplan.rename, newName.apply_eq_iff_eq]

/-- The plan of renamed steps is the renamed plan. -/
theorem toOption_ofSteps_rename (steps : List Step) :
    (ofSteps (steps.map (Step.rename newName))).toOption =
      (ofSteps steps).toOption.map (rename newName) := by
  unfold ofSteps
  rw [List.isEmpty_map]
  split
  · rfl
  · refine toOption_bind_map (PlanGraph.toOption_ofSteps_rename newName steps) fun graph _ => ?_
    refine toOption_bind_map (graph.toOption_topologicalOrder_rename newName) fun order _ => ?_
    refine toOption_bind_map (toOption_terminalOf_rename newName graph steps) fun terminal _ => ?_
    refine toOption_bind_map (Subplan.toOption_decompose_rename newName graph steps terminal)
      fun subplans _ => ?_
    rw [find?_root_rename]
    cases subplans.find? fun subplan => subplan.root = terminal with
    | none => rfl
    | some subplan => rfl

/-! ## Reading plans -/

theorem toOption_addStep_rename (steps : List Step) (key text : String) :
    (addStep (steps.map (Step.rename newName)) (StepRef.renameKey newName key)
        (Token.renameText newName text)).toOption =
      (addStep steps key text).toOption.map (List.map (Step.rename newName)) := by
  unfold addStep
  rw [StepRef.ofText?_trim_renameKey]
  cases StepRef.ofText? (Text.trim key) with
  | none => rfl
  | some reference =>
      have taken : ((steps.map (Step.rename newName)).any fun step =>
            step.reference = newName reference) =
          steps.any fun step => step.reference = reference := by
        simp only [List.any_map, Function.comp_def, Step.reference_rename, newName.apply_eq_iff_eq]
      simp only [Option.map_some, taken]
      split
      · rfl
      · refine toOption_bind_map (Step.toOption_parse_rename newName reference text) fun step _ => ?_
        simp

theorem toOption_parseSteps_rename (raw : Entries String String) :
    (parseSteps (renameRaw newName raw)).toOption =
      (parseSteps raw).toOption.map (List.map (Step.rename newName)) := by
  have start : ([] : List Step) = [].map (Step.rename newName) := rfl
  rw [parseSteps, renameRaw, start]
  refine toOption_foldlM_map (fun _ => True) ?_ (fun _ _ _ _ _ _ => trivial) [] trivial
  intro steps entry _ _
  dsimp only
  rw [toOption_addStep_rename]

theorem isSome_targetProblem?_rename (steps : List Step) (step : Step) :
    (targetProblem? (steps.map (Step.rename newName)) (step.rename newName)).isSome =
      (targetProblem? steps step).isSome := by
  unfold targetProblem?
  rw [Step.operation_rename, Step.arguments_rename, List.head?_map]
  cases expectedTarget? step.operation with
  | none => rfl
  | some expected =>
      match step.arguments.head? with
      | none | some (.literal _) => rfl
      | some (.reference target) =>
          simp only [Option.map_some, Argument.rename, stepIn?_rename]
          cases stepIn? steps target with
          | none => rfl
          | some found =>
              by_cases fits : found.operation = expected <;> simp [fits]

theorem toOption_parse (raw : Entries String String) :
    (parse raw).toOption = (parseSteps raw).toOption.bind fun steps =>
      if (steps.findSome? (targetProblem? steps)).isSome then none else (ofSteps steps).toOption := by
  rw [parse, toOption_bind]
  refine Option.bind_congr fun steps _ => ?_
  split <;> simp [*]

/-- A renamed raw plan is read as the renamed plan. -/
theorem toOption_parse_rename (raw : Entries String String) :
    (parse (renameRaw newName raw)).toOption = (parse raw).toOption.map (rename newName) := by
  rw [toOption_parse, toOption_parse, toOption_parseSteps_rename, Option.bind_map, Option.map_bind]
  refine Option.bind_congr fun steps _ => ?_
  simp only [Function.comp_apply, List.isSome_findSome?, List.any_map, Function.comp_def,
    isSome_targetProblem?_rename, toOption_ofSteps_rename]
  split <;> rfl

end SemanticQuery.Plan
