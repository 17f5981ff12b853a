import SemanticQuery.Proofs.Plan.Division
import SemanticQuery.Proofs.Plan.Order
import SemanticQuery.Proofs.Step.Form

/-!
# The arrangement of plans that were read

What a visit to the steps of a plan can rely on.  Within a subplan, whatever a step depends on is
visited before it, unless it is a return step.  A return step is the root of another subplan, the only
one that holds it, and that subplan comes earlier.
-/

namespace SemanticQuery

namespace Plan

structure IsArranged (plan : Plan) : Prop where
  divided : plan.IsDivided
  forms : ∀ step ∈ plan.steps, Step.HasForm step.operation step.arguments
  /-- The number of a step's arguments lies in the bounds of its operation. -/
  bounds : ∀ step ∈ plan.steps, step.operation.minArguments ≤ step.arguments.length ∧
    ∀ most ∈ step.operation.maxArguments, step.arguments.length ≤ most
  /-- The first argument of some operations refers to a step of the expected operation. -/
  targets : ∀ step ∈ plan.steps, ∀ expected ∈ expectedTarget? step.operation, ∀ target,
    step.arguments.head? = some (.reference target) →
    ∀ other, plan.step? target = some other → other.operation = expected
  nodes : plan.graph.nodes = plan.steps.map (·.reference)
  sound : plan.graph.IsSound
  edge : ∀ step ∈ plan.steps, ∀ target ∈ step.dependencies,
    plan.graph.Edge target step.reference
  isOrder : plan.graph.IsOrder plan.order
  decomposed : Subplan.IsDecomposition plan.graph plan.steps plan.terminal plan.subplans

theorem sinks_of_terminalOf {graph : PlanGraph} {steps : List Step} {terminal : StepRef}
    (found : terminalOf graph steps = .ok terminal) : graph.sinks = [terminal] := by
  unfold terminalOf at found
  split at found
  · cases found
  · rename_i sink single
    split at found
    · split at found
      · cases found
        exact single
      · cases found
    · cases found
  · cases found

theorem IsFormed.isOrder {steps : List Step} {plan : Plan} (formed : IsFormed steps plan)
    (distinct : (plan.steps.map (·.reference)).Nodup) : plan.graph.IsOrder plan.order := by
  obtain ⟨-, rfl, graphOk, orderOk, -⟩ := formed
  exact (PlanGraph.isSound_of_ofSteps distinct graphOk).isOrder_of_topologicalOrder
    orderOk

/-- All steps of a plan that is read lead to its terminal step. -/
theorem isRooted_of_parse {raw : Entries String String} {plan : Plan}
    (parsed : parse raw = .ok plan) :
    Subplan.IsRooted plan.graph plan.steps plan.terminal := by
  obtain ⟨steps, read, -, formed⟩ := parse_eq_ok_iff.mp parsed
  obtain ⟨-, distinct⟩ := areParsed_of_parseSteps read
  have isFormed := isFormed_of_ofSteps formed
  obtain rfl := isFormed.steps_eq
  have sound := PlanGraph.isSound_of_ofSteps distinct isFormed.graph_eq
  exact Subplan.isRooted_of_sinks distinct isFormed.graph_eq
    ((isFormed.isOrder distinct).isAcyclic sound) (sinks_of_terminalOf isFormed.terminal_eq)
    (isOutputIn_of_terminalOf isFormed.terminal_eq)

/-- The edges of a plan that is read are what its steps depend on. -/
theorem exists_step_of_edge {raw : Entries String String} {plan : Plan}
    (parsed : parse raw = .ok plan) {parent child : StepRef} (edge : plan.graph.Edge parent child) :
    ∃ step ∈ plan.steps, step.reference = child ∧ parent ∈ step.dependencies := by
  obtain ⟨steps, read, -, formed⟩ := parse_eq_ok_iff.mp parsed
  obtain ⟨-, distinct⟩ := areParsed_of_parseSteps read
  have isFormed := isFormed_of_ofSteps formed
  obtain rfl := isFormed.steps_eq
  have node := (PlanGraph.isSound_of_ofSteps distinct isFormed.graph_eq).child_mem edge
  rw [PlanGraph.nodes_of_ofSteps isFormed.graph_eq] at node
  obtain ⟨step, member, rfl⟩ := List.mem_map.mp node
  exact ⟨step, member, rfl,
    (PlanGraph.edge_iff_mem_dependencies distinct isFormed.graph_eq member).mp edge⟩

/-- Every plan that is read is arranged. -/
theorem isArranged_of_parse {raw : Entries String String} {plan : Plan}
    (parsed : parse raw = .ok plan) : plan.IsArranged := by
  have rooted := isRooted_of_parse parsed
  obtain ⟨steps, read, targets, formed⟩ := parse_eq_ok_iff.mp parsed
  obtain ⟨canonical, distinct⟩ := areParsed_of_parseSteps read
  have isFormed := isFormed_of_ofSteps formed
  obtain rfl := isFormed.steps_eq
  have graphOk := isFormed.graph_eq
  have subplansOk := isFormed.subplans_eq
  refine ⟨isDivided_of_parse parsed, fun step member => (canonical step member).hasForm,
    fun step member => (canonical step member).length_bounds, ?_,
    PlanGraph.nodes_of_ofSteps graphOk, rooted.sound, ?_, isFormed.isOrder distinct, ?_⟩
  · intro step member expected expects target first other found
    exact operation_of_targetProblem? targets member expects first found
  · intro step member target reads
    exact (PlanGraph.edge_iff_mem_dependencies distinct graphOk member).mpr reads
  · rcases rooted.decompose_cases with ⟨-, found, split, decomposed⟩ | ⟨-, _, -, -, _, refused⟩
    · rw [split] at subplansOk
      exact Except.ok.inj subplansOk ▸ decomposed
    · rw [refused] at subplansOk
      cases subplansOk

namespace IsArranged

variable {plan : Plan} {subplan : Subplan} {step : Step} {target : StepRef}

theorem step?_reference (arranged : plan.IsArranged) (member : step ∈ plan.steps) :
    plan.step? step.reference = some step :=
  Subplan.find?_reference_eq_some arranged.divided.distinct member

theorem exists_step_of_node (arranged : plan.IsArranged) (node : target ∈ plan.graph.nodes) :
    ∃ other, plan.step? target = some other := by
  rw [arranged.nodes] at node
  obtain ⟨other, member, rfl⟩ := List.mem_map.mp node
  exact ⟨other, arranged.step?_reference member⟩

/-- What a step depends on is a step. -/
theorem exists_step_of_reads (arranged : plan.IsArranged) (member : step ∈ plan.steps)
    (reads : target ∈ step.dependencies) : ∃ other, plan.step? target = some other :=
  arranged.exists_step_of_node (arranged.sound.parent_mem (arranged.edge step member target reads))

theorem areKeys (arranged : plan.IsArranged) (member : step ∈ plan.steps)
    (operation : step.operation = .sort) : ∃ keys, Argument.AreKeys step.arguments keys := by
  have form := arranged.forms step member
  rw [operation] at form
  generalize step.arguments = arguments at form
  cases form with
  | listing impossible | applied impossible => cases impossible
  | sort areKeys => exact ⟨_, areKeys⟩

theorem eq_of_root_eq (arranged : plan.IsArranged) {other : Subplan}
    (listed : subplan ∈ plan.subplans) (otherListed : other ∈ plan.subplans)
    (sameRoot : subplan.root = other.root) : subplan = other :=
  List.inj_on_of_nodup_map arranged.decomposed.distinct listed otherListed sameRoot

/-- A return step of a subplan is its root. -/
theorem eq_root_of_isOutput (arranged : plan.IsArranged) (listed : subplan ∈ plan.subplans)
    (member : step ∈ plan.steps) (holds : subplan.has step.reference = true)
    (output : step.isOutput = true) : step.reference = subplan.root := by
  rcases (arranged.decomposed.has_iff subplan listed _).mp holds with isRoot | path
  · exact isRoot
  · have isOutput := Subplan.isOutputIn_reference arranged.divided.distinct member
    rw [path.isOutput_eq_false, output] at isOutput
    cases isOutput

/-- The members of a subplan are steps. -/
theorem mem_nodes_of_has (arranged : plan.IsArranged) (listed : subplan ∈ plan.subplans)
    (holds : subplan.has target = true) : target ∈ plan.graph.nodes := by
  rcases (arranged.decomposed.has_iff subplan listed target).mp holds with rfl | path
  · obtain ⟨step, member, same, -⟩ :=
      (arranged.decomposed.mem_roots_iff _).mp (List.mem_map_of_mem listed)
    rw [arranged.nodes, ← same]
    exact List.mem_map_of_mem member
  · obtain ⟨_, edge, -⟩ := Relation.TransGen.head'_iff.mp path
    exact arranged.sound.parent_mem edge.2

theorem nodup_order (arranged : plan.IsArranged) : plan.order.Nodup :=
  arranged.isOrder.perm.nodup_iff.mpr arranged.sound.distinct

theorem mem_order (arranged : plan.IsArranged) (member : step ∈ plan.steps) :
    step.reference ∈ plan.order := by
  rw [arranged.isOrder.perm.mem_iff, arranged.nodes]
  exact List.mem_map_of_mem member

theorem mem_stepsOf (arranged : plan.IsArranged) (listed : subplan ∈ plan.subplans)
    (holds : subplan.has target = true) : target ∈ plan.stepsOf subplan :=
  List.mem_filter.mpr
    ⟨arranged.isOrder.perm.mem_iff.mpr (arranged.mem_nodes_of_has listed holds), holds⟩

/-- Within a subplan a step is visited after what it depends on. -/
theorem mem_before_of_reads (arranged : plan.IsArranged) (member : step ∈ plan.steps)
    {before after : List StepRef} (whole : plan.stepsOf subplan = before ++ step.reference :: after)
    (reads : target ∈ step.dependencies) (holds : subplan.has target = true) : target ∈ before := by
  obtain ⟨front, back, order, isBefore, rest⟩ := List.filter_eq_append_iff.mp whole
  obtain ⟨skipped, later, rfl, outside, -, -⟩ := List.filter_eq_cons_iff.mp rest
  have earlier : target ∈ front ++ skipped := by
    refine arranged.isOrder.parentsFirst _ step.reference later ?_ target
      (arranged.edge step member target reads)
    rw [order, List.append_assoc]
  rcases List.mem_append.mp earlier with inFront | inSkipped
  · rw [← isBefore]
    exact List.mem_filter.mpr ⟨inFront, holds⟩
  · exact absurd holds (outside target inSkipped)

/-- What a step of a subplan reads outside of it is the root of one other subplan, which comes
earlier. -/
theorem exists_parent (arranged : plan.IsArranged) {before later : List Subplan}
    (whole : plan.subplans = before ++ subplan :: later) (member : step ∈ plan.steps)
    (holds : subplan.has step.reference = true) (reads : target ∈ step.dependencies)
    (outside : subplan.has target = false) :
    ∃ parent ∈ before, parent.root = target ∧ parent.has target = true ∧
      plan.othersWith target subplan.id = [parent] := by
  have listed : subplan ∈ plan.subplans := by simp [whole]
  have output : Subplan.isOutputIn plan.steps target = true := by
    rcases arranged.divided.inside subplan listed step member holds target reads with inside | output
    · rw [outside] at inside
      cases inside
    · exact output
  obtain ⟨inner, innerMember, rfl, isOutput⟩ :=
    (Subplan.isOutputIn_eq_true_iff arranged.divided.distinct).mp output
  obtain ⟨parent, parentListed, isRoot⟩ := List.mem_map.mp
    ((arranged.decomposed.mem_roots_iff inner.reference).mpr ⟨inner, innerMember, rfl, isOutput⟩)
  have parentHas : parent.has inner.reference = true :=
    (arranged.decomposed.has_iff parent parentListed _).mpr (.inl isRoot.symm)
  have differ : parent ≠ subplan := by
    rintro rfl
    rw [outside] at parentHas
    cases parentHas
  have earlier : parent ∈ before := by
    refine arranged.decomposed.readsEarlier before subplan later whole parent parentListed differ
      step.reference holds ?_
    rw [isRoot]
    exact arranged.edge step member _ reads
  refine ⟨parent, earlier, isRoot, parentHas, ?_⟩
  -- The parent is the one place of its root, so no other subplan holds it.
  have increasing := arranged.divided.increasing
  have distinct : plan.subplans.Nodup := List.Nodup.of_map _ arranged.decomposed.distinct
  have otherId : parent.id ≠ subplan.id := by
    rw [whole, List.pairwise_append] at increasing
    have less := increasing.2.2 parent earlier subplan List.mem_cons_self
    intro same
    rw [same] at less
    exact Nat.lt_irrefl _ less
  have only {other : Subplan} :
      other ∈ plan.othersWith inner.reference subplan.id ↔ other = parent := by
    simp only [othersWith, List.mem_filter, Bool.and_eq_true, decide_eq_true_eq]
    constructor
    · rintro ⟨otherListed, -, otherHas⟩
      exact arranged.divided.apart other otherListed parent parentListed inner innerMember otherHas
        parentHas
    · rintro rfl
      exact ⟨parentListed, otherId, parentHas⟩
  exact List.perm_singleton.mp <|
    (List.perm_ext_iff_of_nodup (distinct.filter _) (List.nodup_singleton parent)).mpr
      fun other => only.trans List.mem_singleton.symm

end IsArranged

end Plan

end SemanticQuery
