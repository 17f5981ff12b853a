import Mathlib.Data.Finset.Card
import Mathlib.Logic.Relation
import SemanticQuery.Proofs.Plan.Links

/-!
# Paths in the graph of a plan

The graph of steps with distinct references lists every step once and has edges between steps only.
In a graph without cycles each edge leads to fewer steps, so every step leads to a sink.
-/

namespace SemanticQuery.PlanGraph

def Edge (graph : PlanGraph) (parent child : StepRef) : Prop :=
  parent ∈ graph.parents child

def IsAcyclic (graph : PlanGraph) : Prop :=
  ∀ step, ¬ Relation.TransGen graph.Edge step step

/-- Every step is listed once, edges lead from steps to steps, and they are the same from both
ends. -/
structure IsSound (graph : PlanGraph) : Prop where
  distinct : graph.nodes.Nodup
  parent_mem : ∀ {parent child : StepRef}, graph.Edge parent child → parent ∈ graph.nodes
  child_mem : ∀ {parent child : StepRef}, graph.Edge parent child → child ∈ graph.nodes
  isInverse : graph.links.IsInverse

namespace IsSound

variable {graph : PlanGraph}

theorem nodup_parents (sound : graph.IsSound) (step : StepRef) : (graph.parents step).Nodup :=
  sound.isInverse.nodup_parents step

theorem nodup_children (sound : graph.IsSound) (step : StepRef) : (graph.children step).Nodup :=
  sound.isInverse.nodup_children step

theorem mem_children_iff (sound : graph.IsSound) {parent child : StepRef} :
    child ∈ graph.children parent ↔ graph.Edge parent child :=
  (sound.isInverse.inverse parent child).symm

/-- What is no step has no parents. -/
theorem parents_eq_nil (sound : graph.IsSound) {child : StepRef} (absent : child ∉ graph.nodes) :
    graph.parents child = [] :=
  List.eq_nil_iff_forall_not_mem.mpr fun _ edge => absent (sound.child_mem edge)

end IsSound

/-- A sink is a step that no step reads. -/
theorem IsSound.mem_sinks_iff {graph : PlanGraph} (sound : graph.IsSound) {step : StepRef} :
    step ∈ graph.sinks ↔ step ∈ graph.nodes ∧ ∀ child, ¬ graph.Edge step child := by
  simp only [sinks, List.mem_filter, List.isEmpty_iff, List.eq_nil_iff_forall_not_mem,
    sound.mem_children_iff]

/-- A graph whose edges all lead upwards has no cycles. -/
theorem isAcyclic_of_height {graph : PlanGraph} (height : StepRef → Nat)
    (upwards : ∀ {parent child : StepRef}, graph.Edge parent child → height parent < height child) :
    graph.IsAcyclic := by
  have rises {first last : StepRef} (path : Relation.TransGen graph.Edge first last) :
      height first < height last := by
    induction path with
    | single edge => exact upwards edge
    | tail _ edge ih => exact Nat.lt_trans ih (upwards edge)
  intro step cycle
  exact Nat.lt_irrefl _ (rises cycle)

/-! ## Graphs of steps -/

/-- A graph is formed by linking all steps to their dependencies, which are steps. -/
theorem ofSteps_eq_ok_iff {steps : List Step} {graph : PlanGraph} :
    ofSteps steps = .ok graph ↔
      (∀ step ∈ steps, step.dependencies ⊆ steps.map (·.reference)) ∧
        graph = ⟨steps.map (·.reference), Links.ofSteps steps⟩ := by
  have defined_iff : steps.findSome? (undefinedIn? (steps.map (·.reference))) = none ↔
      ∀ step ∈ steps, step.dependencies ⊆ steps.map (·.reference) := by
    simp only [List.findSome?_eq_none_iff, undefinedIn?, Option.map_eq_none_iff,
      List.find?_eq_none, decide_eq_true_eq, not_not]
    rfl
  rw [ofSteps_eq]
  cases found : steps.findSome? (undefinedIn? (steps.map (·.reference))) with
  | none =>
      have defined := defined_iff.mp found
      simp only [Except.ok.injEq, eq_comm (a := graph)]
      exact ⟨fun same => ⟨defined, same⟩, And.right⟩
  | some error =>
      simp only [reduceCtorEq, false_iff, not_and]
      intro defined
      rw [defined_iff.mpr defined] at found
      cases found

section Formed

variable {steps : List Step} {graph : PlanGraph}

theorem nodes_of_ofSteps (formed : ofSteps steps = .ok graph) :
    graph.nodes = steps.map (·.reference) := by
  obtain ⟨-, rfl⟩ := ofSteps_eq_ok_iff.mp formed
  rfl

/-- The parents of a step are what it depends on, in argument order and without repetitions. -/
theorem parents_of_ofSteps (distinct : (steps.map (·.reference)).Nodup)
    (formed : ofSteps steps = .ok graph) {step : Step} (member : step ∈ steps) :
    graph.parents step.reference = step.dependencies.eraseDups := by
  obtain ⟨-, rfl⟩ := ofSteps_eq_ok_iff.mp formed
  exact Links.listed_parents_ofSteps distinct member

/-- The edges to a step come from what it depends on. -/
theorem edge_iff_mem_dependencies (distinct : (steps.map (·.reference)).Nodup)
    (formed : ofSteps steps = .ok graph) {step : Step} (member : step ∈ steps) {target : StepRef} :
    graph.Edge target step.reference ↔ target ∈ step.dependencies := by
  rw [Edge, parents_of_ofSteps distinct formed member]
  exact List.mem_eraseDups

theorem isSound_of_ofSteps (distinct : (steps.map (·.reference)).Nodup)
    (formed : ofSteps steps = .ok graph) : graph.IsSound := by
  have nodes := nodes_of_ofSteps formed
  obtain ⟨defined, same⟩ := ofSteps_eq_ok_iff.mp formed
  have child_mem {parent child : StepRef} (edge : graph.Edge parent child) :
      child ∈ graph.nodes := by
    rw [nodes]
    rw [same] at edge
    exact Links.mem_of_mem_listed_parents edge
  refine ⟨nodes ▸ distinct, ?_, child_mem, same ▸ Links.isInverse_ofSteps steps⟩
  intro parent child edge
  have isStep := child_mem edge
  rw [nodes] at isStep ⊢
  obtain ⟨step, member, rfl⟩ := List.mem_map.mp isStep
  exact defined step member ((edge_iff_mem_dependencies distinct formed member).mp edge)

end Formed

/-! ## Finite relations without cycles -/

section Rank

variable {relation : StepRef → StepRef → Prop}

open Classical in
/-- How many of the given steps a step leads to. -/
noncomputable def rank (relation : StepRef → StepRef → Prop) (nodes : List StepRef)
    (step : StepRef) : Nat :=
  (nodes.toFinset.filter fun other => Relation.TransGen relation step other).card

/-- Without cycles, a step that is led to leads to fewer steps. -/
theorem rank_lt (acyclic : ∀ step, ¬ Relation.TransGen relation step step) {nodes : List StepRef}
    {first second : StepRef} (path : Relation.TransGen relation first second)
    (member : second ∈ nodes) : rank relation nodes second < rank relation nodes first := by
  classical
  apply Finset.card_lt_card
  rw [Finset.ssubset_iff_of_subset]
  · refine ⟨second, ?_, ?_⟩
    · simp [member, path]
    · simp [acyclic second]
  · intro other reached
    simp only [Finset.mem_filter] at reached ⊢
    exact ⟨reached.1, path.trans reached.2⟩

/-- Without cycles, a step leads to fewer steps than there are. -/
theorem rank_lt_length (acyclic : ∀ step, ¬ Relation.TransGen relation step step)
    {nodes : List StepRef} {step : StepRef} (member : step ∈ nodes) :
    rank relation nodes step < nodes.length := by
  classical
  have smaller : rank relation nodes step < nodes.toFinset.card := by
    apply Finset.card_lt_card
    rw [Finset.ssubset_iff_of_subset (Finset.filter_subset _ _)]
    exact ⟨step, by simp [member], by simp [acyclic step]⟩
  exact Nat.lt_of_lt_of_le smaller nodes.toFinset_card_le

end Rank

/-- In a graph without cycles every step leads to a sink. -/
theorem IsSound.exists_sink {graph : PlanGraph} (sound : graph.IsSound) (acyclic : graph.IsAcyclic)
    {step : StepRef} (member : step ∈ graph.nodes) :
    ∃ sink ∈ graph.sinks, Relation.ReflTransGen graph.Edge step sink := by
  -- Strong induction on the number of steps that are led to.
  induction measure : rank graph.Edge graph.nodes step using Nat.strongRecOn generalizing step with
  | _ count ih =>
      by_cases last : ∀ child, ¬ graph.Edge step child
      · exact ⟨step, sound.mem_sinks_iff.mpr ⟨member, last⟩, .refl⟩
      · rw [not_forall_not] at last
        obtain ⟨child, edge⟩ := last
        have smaller := rank_lt acyclic (.single edge) (sound.child_mem edge)
        rw [measure] at smaller
        obtain ⟨sink, isSink, path⟩ := ih _ smaller (sound.child_mem edge) rfl
        exact ⟨sink, isSink, path.head edge⟩

theorem exists_sink_of_mem {steps : List Step} {graph : PlanGraph}
    (distinct : (steps.map (·.reference)).Nodup) (formed : ofSteps steps = .ok graph)
    (acyclic : graph.IsAcyclic) {step : Step} (member : step ∈ steps) :
    ∃ sink ∈ graph.sinks, Relation.ReflTransGen graph.Edge step.reference sink :=
  (isSound_of_ofSteps distinct formed).exists_sink acyclic
    (nodes_of_ofSteps formed ▸ List.mem_map_of_mem member)

/-- Without cycles all steps lead to the only sink. -/
theorem leads_of_sinks {steps : List Step} {graph : PlanGraph}
    (distinct : (steps.map (·.reference)).Nodup) (formed : ofSteps steps = .ok graph)
    (acyclic : graph.IsAcyclic) {sink : StepRef} (single : graph.sinks = [sink]) :
    ∀ step ∈ steps, Relation.ReflTransGen graph.Edge step.reference sink := by
  intro step member
  obtain ⟨last, isSink, path⟩ := exists_sink_of_mem distinct formed acyclic member
  rw [single, List.mem_singleton] at isSink
  exact isSink ▸ path

end SemanticQuery.PlanGraph
