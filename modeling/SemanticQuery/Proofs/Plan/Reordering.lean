import SemanticQuery.Proofs.Plan.Arranged
import SemanticQuery.Proofs.Plan.Cycles

/-!
# Plans in another order

The order in which the steps of a plan are written decides the order of its nodes, of the children of
a step and of the topological sort.  It decides nothing else: the parents of a step come in the order
of its arguments, and the search for subplans follows parents alone.  So a plan is accepted in every
order of its entries or in none, and its subplans have the same numbers in every order.
-/

namespace SemanticQuery

/-! ## Steps by reference -/

section Steps

variable {steps others : List Step}

/-- The step that a reference names does not depend on the order of the steps. -/
theorem Plan.stepIn?_perm (distinct : (steps.map (·.reference)).Nodup) (perm : steps.Perm others)
    (reference : StepRef) : stepIn? others reference = stepIn? steps reference := by
  have named {known : List Step} (once : (known.map (·.reference)).Nodup) (step : Step) :
      stepIn? known reference = some step ↔ step ∈ known ∧ step.reference = reference := by
    constructor
    · intro found
      exact ⟨List.mem_of_find?_eq_some found, by simpa using List.find?_some found⟩
    · rintro ⟨member, rfl⟩
      exact Subplan.find?_reference_eq_some once member
  refine Option.ext fun step => ?_
  rw [named distinct, named ((perm.map (·.reference)).nodup distinct), perm.mem_iff]

/-- A check of all steps does not depend on their order. -/
theorem findSome?_eq_none_perm {problem? : Step → Option Error} (perm : steps.Perm others)
    (accepted : steps.findSome? problem? = none) : others.findSome? problem? = none := by
  rw [List.findSome?_eq_none_iff] at accepted ⊢
  exact fun step member => accepted step (perm.mem_iff.mpr member)

end Steps

/-! ## Graphs -/

namespace PlanGraph

variable {graph other : PlanGraph}

/-- Graphs with the same edges, of steps in another order.  What a step depends on comes in the order
of its arguments, what depends on it in the order of the plan. -/
structure IsReordering (graph other : PlanGraph) : Prop where
  nodes : graph.nodes.Perm other.nodes
  parents : ∀ step, other.parents step = graph.parents step
  children : ∀ step, (graph.children step).Perm (other.children step)
  sound : graph.IsSound
  otherSound : other.IsSound

theorem exists_isReordering_of_ofSteps {steps others : List Step}
    (distinct : (steps.map (·.reference)).Nodup) (perm : steps.Perm others)
    (formed : ofSteps steps = .ok graph) :
    ∃ other, ofSteps others = .ok other ∧ graph.IsReordering other := by
  obtain ⟨defined, -⟩ := ofSteps_eq_ok_iff.mp formed
  have nodes : (steps.map (·.reference)).Perm (others.map (·.reference)) := perm.map (·.reference)
  have otherDistinct := nodes.nodup distinct
  have otherFormed : ofSteps others = .ok ⟨others.map (·.reference), Links.ofSteps others⟩ := by
    refine ofSteps_eq_ok_iff.mpr ⟨fun step member target reads => ?_, rfl⟩
    exact nodes.subset (defined step (perm.mem_iff.mpr member) reads)
  have sound := isSound_of_ofSteps distinct formed
  have otherSound := isSound_of_ofSteps otherDistinct otherFormed
  have parents (reference : StepRef) :
      PlanGraph.parents ⟨others.map (·.reference), Links.ofSteps others⟩ reference =
        graph.parents reference := by
    by_cases isStep : reference ∈ steps.map (·.reference)
    · obtain ⟨step, member, rfl⟩ := List.mem_map.mp isStep
      rw [parents_of_ofSteps distinct formed member,
        parents_of_ofSteps otherDistinct otherFormed (perm.mem_iff.mp member)]
    · rw [sound.parents_eq_nil (nodes_of_ofSteps formed ▸ isStep),
        otherSound.parents_eq_nil (mt nodes.mem_iff.mpr isStep)]
  refine ⟨_, otherFormed, nodes_of_ofSteps formed ▸ nodes, parents, fun step => ?_, sound,
    otherSound⟩
  refine (List.perm_ext_iff_of_nodup (sound.nodup_children step)
    (otherSound.nodup_children step)).mpr fun child => ?_
  rw [sound.mem_children_iff, otherSound.mem_children_iff, Edge, Edge, parents]

namespace IsReordering

variable (reordering : graph.IsReordering other)
include reordering

theorem edge : other.Edge = graph.Edge := by
  funext parent child
  rw [Edge, reordering.parents]
  rfl

theorem isAcyclic (acyclic : graph.IsAcyclic) : other.IsAcyclic := by
  rw [IsAcyclic, reordering.edge]
  exact acyclic

theorem length_edges : other.edges.length = graph.edges.length := by
  rw [edges, edges, funext reordering.parents]
  exact (reordering.nodes.flatMap_right _).length_eq.symm

theorem sinks_eq_singleton {sink : StepRef} (single : graph.sinks = [sink]) :
    other.sinks = [sink] := by
  have same : graph.sinks.Perm other.sinks := by
    refine (List.perm_ext_iff_of_nodup (reordering.sound.distinct.filter _)
      (reordering.otherSound.distinct.filter _)).mpr fun step => ?_
    refine reordering.sound.mem_sinks_iff.trans (Iff.trans ?_ reordering.otherSound.mem_sinks_iff.symm)
    rw [reordering.edge, reordering.nodes.mem_iff]
  rw [single] at same
  exact (List.singleton_perm.mp same).symm

end IsReordering

end PlanGraph

/-! ## Subplans -/

namespace Subplan

variable {graph other : PlanGraph} {isOutput : StepRef → Bool}

/-- The search of a region asks a graph for nothing but parents. -/
theorem explore_congr (parents : other.parents = graph.parents) (bound : Nat) (stack : List StepRef)
    (region : Region) :
    explore other isOutput bound stack region = explore graph isOutput bound stack region := by
  induction bound generalizing stack region with
  | zero => rfl
  | succ bound ih =>
      cases stack with
      | nil => rfl
      | cons step stack => simp only [explore, parents, ih]

theorem roots_congr (regions : regionOf other isOutput = regionOf graph isOutput) (bound : Nat)
    (root : StepRef) : roots other isOutput bound root = roots graph isOutput bound root := by
  induction bound generalizing root with
  | zero => rfl
  | succ bound ih => rw [roots, roots, regions, funext ih]

/-- The subplans that are discovered do not depend on the order of the steps. -/
theorem discover_reordered (reordering : graph.IsReordering other) (terminal : StepRef) :
    discover other isOutput terminal = discover graph isOutput terminal := by
  have parents : other.parents = graph.parents := funext reordering.parents
  have regions : regionOf other isOutput = regionOf graph isOutput := by
    funext root
    rw [regionOf, regionOf, explore_congr parents, parents, reordering.length_edges]
  rw [discover, discover, roots_congr regions, reordering.nodes.length_eq]

theorem decompose_reordered (reordering : graph.IsReordering other) {steps others : List Step}
    (distinct : (steps.map (·.reference)).Nodup) (perm : steps.Perm others) {terminal : StepRef}
    {subplans : List Subplan} (split : decompose graph steps terminal = .ok subplans) :
    decompose other others terminal = .ok subplans := by
  have outputs : isOutputIn others = isOutputIn steps := by
    funext reference
    exact congrArg (·.any Step.isOutput) (Plan.stepIn?_perm distinct perm reference)
  unfold decompose at split ⊢
  rw [outputs, discover_reordered reordering]
  dsimp only at split ⊢
  split at split
  · cases split
  · rename_i placed
    rw [findSome?_eq_none_perm perm placed]
    exact split

end Subplan

/-! ## Plans -/

namespace Plan

variable {raw other : Entries String String} {plan found : Plan}

/-- Two plans with the same steps in any order, and with the same subplans in the same order. -/
structure IsReordering (plan other : Plan) : Prop where
  steps : plan.steps.Perm other.steps
  graph : plan.graph.IsReordering other.graph
  terminal : other.terminal = plan.terminal
  outermost : other.outermost = plan.outermost
  subplans : other.subplans = plan.subplans

/-- The steps of entries in another order. -/
theorem exists_parseSteps_perm {steps : List Step} (perm : raw.Perm other)
    (read : parseSteps raw = .ok steps) :
    ∃ others, parseSteps other = .ok others ∧ steps.Perm others := by
  obtain ⟨reads, distinct⟩ := parseSteps_eq_ok_iff.mp read
  obtain ⟨others, otherReads, same⟩ := List.perm_comp_forall₂ perm.symm reads
  refine ⟨others, parseSteps_eq_ok_iff.mpr ⟨otherReads, ?_⟩, same.symm⟩
  exact (same.symm.map (·.reference)).nodup distinct

/-- The first arguments of steps refer to the right kinds of steps in every order. -/
theorem targetProblem?_perm {steps others : List Step} (distinct : (steps.map (·.reference)).Nodup)
    (perm : steps.Perm others) : targetProblem? others = targetProblem? steps := by
  funext step
  simp only [targetProblem?, stepIn?_perm distinct perm]

/-- Steps in another order form a plan with the same subplans. -/
theorem exists_ofSteps_perm {steps others : List Step} (distinct : (steps.map (·.reference)).Nodup)
    (perm : steps.Perm others) (formed : ofSteps steps = .ok plan) :
    ∃ found, ofSteps others = .ok found ∧ plan.IsReordering found := by
  have isFormed := isFormed_of_ofSteps formed
  obtain ⟨subplan, isOutermost, outermost⟩ := isFormed.outermost_eq
  obtain ⟨graph, graphOk, reordering⟩ :=
    PlanGraph.exists_isReordering_of_ofSteps distinct perm isFormed.graph_eq
  have acyclic := reordering.isAcyclic
    ((isFormed.isOrder (isFormed.steps_eq ▸ distinct)).isAcyclic reordering.sound)
  have otherDistinct := (perm.map (·.reference)).nodup distinct
  obtain ⟨-, -, orders, -⟩ := PlanGraph.topologicalOrder_exact otherDistinct graphOk
  obtain ⟨order, orderOk⟩ := orders.mpr acyclic
  have terminalOk : terminalOf graph others = .ok plan.terminal := by
    have terminal := isFormed.terminal_eq
    have single := sinks_of_terminalOf terminal
    rw [terminalOf, single] at terminal
    rw [terminalOf, reordering.sinks_eq_singleton single]
    simpa only [stepIn?_perm distinct perm] using terminal
  have subplansOk := Subplan.decompose_reordered reordering distinct perm isFormed.subplans_eq
  have nonempty : others.isEmpty = false := by
    rw [List.isEmpty_eq_false_iff]
    rintro rfl
    exact isFormed.nonempty perm.eq_nil
  refine ⟨⟨others, graph, order, plan.subplans, plan.terminal, plan.outermost⟩, ?_,
    isFormed.steps_eq ▸ perm, reordering, rfl, rfl, rfl⟩
  simp only [ofSteps, nonempty, graphOk, orderOk, terminalOk, subplansOk, isOutermost, outermost,
    bind, Except.bind, Bool.false_eq_true, if_false]

theorem exists_parse_perm (perm : raw.Perm other) (parsed : parse raw = .ok plan) :
    ∃ found, parse other = .ok found ∧ plan.IsReordering found := by
  obtain ⟨steps, read, targets, formed⟩ := parse_eq_ok_iff.mp parsed
  obtain ⟨-, distinct⟩ := areParsed_of_parseSteps read
  obtain ⟨others, otherRead, same⟩ := exists_parseSteps_perm perm read
  obtain ⟨found, otherFormed, reordering⟩ := exists_ofSteps_perm distinct same formed
  refine ⟨found, parse_eq_ok_iff.mpr ⟨others, otherRead, ?_, otherFormed⟩, reordering⟩
  rw [targetProblem?_perm distinct same]
  exact findSome?_eq_none_perm same targets

/-- A raw plan is accepted in every order of its entries or in none, and the plans have the same
terminal step, the same outermost subplan and the same subplans in the same order. -/
theorem parse_reordered (perm : raw.Perm other) :
    ((∃ plan, parse raw = .ok plan) ↔ ∃ found, parse other = .ok found) ∧
      ∀ plan found, parse raw = .ok plan → parse other = .ok found → plan.IsReordering found := by
  refine ⟨⟨?_, ?_⟩, ?_⟩
  · rintro ⟨plan, parsed⟩
    obtain ⟨found, otherParsed, -⟩ := exists_parse_perm perm parsed
    exact ⟨found, otherParsed⟩
  · rintro ⟨found, parsed⟩
    obtain ⟨plan, otherParsed, -⟩ := exists_parse_perm perm.symm parsed
    exact ⟨plan, otherParsed⟩
  · intro plan found parsed otherParsed
    obtain ⟨same, sameParsed, reordering⟩ := exists_parse_perm perm parsed
    rw [sameParsed] at otherParsed
    cases otherParsed
    exact reordering

def sharedReturn : Entries String String :=
  [("|1|", "(retrieve_entity Person)"), ("|2|", "(retrieve_attribute |1| age)"),
    ("|3|", "(collect |2|)"), ("|4|", "(return |3|)"), ("|5|", "(retrieve_attribute |4| |2|)"),
    ("|6|", "(collect |5|)"), ("|7|", "(return |6|)"), ("|8|", "(retrieve_attribute |4| |2|)"),
    ("|9|", "(retrieve_attribute |7| |5|)"), ("|10|", "(collect |8| |9|)"), ("|11|", "(return |10|)")]

/-- Written backwards, the steps are sorted in another order, but a number is missing for the same
repetition and the subplans are the same. -/
theorem parse_reordered_sharedReturn :
    sharedReturn.Perm sharedReturn.reverse ∧
      ∃ plan found, parse sharedReturn = .ok plan ∧ parse sharedReturn.reverse = .ok found ∧
        plan.order ≠ found.order ∧
        plan.subplans.map (fun subplan => (subplan.id.number, subplan.root.name)) =
          [(0, "4"), (1, "7"), (3, "11")] ∧
        plan.IsReordering found := by
  have perm : sharedReturn.Perm sharedReturn.reverse := sharedReturn.reverse_perm.symm
  have runs : (do
      let plan ← parse sharedReturn
      let found ← parse sharedReturn.reverse
      pure (decide (plan.order ≠ found.order),
        plan.subplans.map fun subplan => (subplan.id.number, subplan.root.name))) =
        Except.ok (true, [(0, "4"), (1, "7"), (3, "11")]) := by
    decide +kernel
  obtain ⟨plan, parsed, runs⟩ := bind_eq_ok_iff.mp runs
  obtain ⟨found, otherParsed, runs⟩ := bind_eq_ok_iff.mp runs
  obtain ⟨differ, numbers⟩ := Prod.mk.inj (Except.ok.inj runs)
  exact ⟨perm, plan, found, parsed, otherParsed, of_decide_eq_true differ, numbers,
    (parse_reordered perm).2 plan found parsed otherParsed⟩

end Plan

end SemanticQuery
