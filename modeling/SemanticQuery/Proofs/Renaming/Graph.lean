import SemanticQuery.Proofs.Plan.Links
import SemanticQuery.Proofs.Renaming.Step

/-!
# Renaming the steps of a graph

The graph of renamed steps is the renamed graph.  Steps are only compared with each other, and whatever
is put in order is put in the order of the plan, so a renamed graph is sorted in the renamed order.
-/

namespace SemanticQuery

variable (newName : StepRef ↪ StepRef)

theorem mem_map_newName {step : StepRef} {steps : List StepRef} :
    newName step ∈ steps.map newName ↔ step ∈ steps :=
  List.mem_map_of_injective newName.injective

namespace Step

@[simp] theorem references_rename (step : Step) :
    (step.rename newName).references = step.references.map newName := by
  simp [references, rename, List.filterMap_map, List.map_filterMap]

@[simp] theorem dependencies_rename (step : Step) :
    (step.rename newName).dependencies = step.dependencies.map newName := by
  have all := step.references_rename newName
  obtain ⟨reference, operation, arguments⟩ := step
  cases operation with
  | retrieveAttribute =>
      simp [dependencies, rename, ← List.map_take, List.filterMap_map, List.map_filterMap]
  | _ => exact all

end Step

namespace Links

def rename (links : Links) : Links :=
  ⟨links.parents.relabel newName (List.map newName),
    links.children.relabel newName (List.map newName)⟩

theorem add_rename (child : StepRef) (links : Links) (parent : StepRef) :
    (links.rename newName).add (newName child) (newName parent) =
      (links.add child parent).rename newName := by
  unfold add
  simp only [rename, Entries.listed_relabel, mem_map_newName]
  split
  · rfl
  · simp only [Entries.push_relabel]

theorem addStep_rename (links : Links) (step : Step) :
    (links.rename newName).addStep (step.rename newName) =
      (links.addStep step).rename newName := by
  rw [addStep, addStep, Step.dependencies_rename, Step.reference_rename]
  induction step.dependencies generalizing links with
  | nil => rfl
  | cons parent rest ih => rw [List.map_cons, List.foldl_cons, add_rename, ih, List.foldl_cons]

theorem ofSteps_rename (steps : List Step) :
    ofSteps (steps.map (Step.rename newName)) = (ofSteps steps).rename newName := by
  have later (links : Links) :
      (steps.map (Step.rename newName)).foldl addStep (links.rename newName) =
        (steps.foldl addStep links).rename newName := by
    induction steps generalizing links with
    | nil => rfl
    | cons step rest ih => rw [List.map_cons, List.foldl_cons, addStep_rename, ih, List.foldl_cons]
  exact later ⟨[], []⟩

end Links

namespace PlanGraph

def rename (graph : PlanGraph) : PlanGraph :=
  ⟨graph.nodes.map newName, graph.links.rename newName⟩

@[simp] theorem nodes_rename (graph : PlanGraph) :
    (graph.rename newName).nodes = graph.nodes.map newName :=
  rfl

@[simp] theorem parents_rename (graph : PlanGraph) (step : StepRef) :
    (graph.rename newName).parents (newName step) = (graph.parents step).map newName :=
  graph.links.parents.listed_relabel newName newName step

@[simp] theorem children_rename (graph : PlanGraph) (step : StepRef) :
    (graph.rename newName).children (newName step) = (graph.children step).map newName :=
  graph.links.children.listed_relabel newName newName step

@[simp] theorem sinks_rename (graph : PlanGraph) :
    (graph.rename newName).sinks = graph.sinks.map newName := by
  simp [sinks, List.filter_map, Function.comp_def]

theorem length_edges_rename (graph : PlanGraph) :
    (graph.rename newName).edges.length = graph.edges.length := by
  simp [edges, List.length_flatMap, Function.comp_def]

theorem isSome_undefinedIn?_rename (known : List StepRef) (step : Step) :
    (undefinedIn? (known.map newName) (step.rename newName)).isSome =
      (undefinedIn? known step).isSome := by
  simp only [undefinedIn?, Step.dependencies_rename, List.find?_map, Option.isSome_map,
    Function.comp_def, mem_map_newName]

theorem toOption_ofSteps (steps : List Step) :
    (ofSteps steps).toOption =
      if (steps.findSome? (undefinedIn? (steps.map (·.reference)))).isSome then none
      else some ⟨steps.map (·.reference), Links.ofSteps steps⟩ := by
  rw [ofSteps_eq]
  split <;> simp [*]

/-- The graph of renamed steps is the renamed graph. -/
theorem toOption_ofSteps_rename (steps : List Step) :
    (ofSteps (steps.map (Step.rename newName))).toOption =
      (ofSteps steps).toOption.map (rename newName) := by
  have references : (steps.map (Step.rename newName)).map (·.reference) =
      (steps.map (·.reference)).map newName := by
    simp
  have undefined : ((steps.map (Step.rename newName)).findSome?
        (undefinedIn? ((steps.map (Step.rename newName)).map (·.reference)))).isSome =
      (steps.findSome? (undefinedIn? (steps.map (·.reference)))).isSome := by
    simp only [references, List.isSome_findSome?, List.any_map, Function.comp_def,
      isSome_undefinedIn?_rename]
  rw [toOption_ofSteps, toOption_ofSteps, undefined]
  split
  · rfl
  · simp [rename, Links.ofSteps_rename]

/-! ## The order -/

def Sorting.rename (sorting : Sorting) : Sorting where
  queue := sorting.queue.map newName
  order := sorting.order.map newName
  waiting := sorting.waiting.relabel newName id

theorem release_rename (sorting : Sorting) (child : StepRef) :
    release (sorting.rename newName) (newName child) = (release sorting child).rename newName := by
  unfold release
  simp only [Sorting.rename, Entries.get?_relabel, Option.map_id_fun, id]
  cases sorting.waiting.get? child with
  | none => rfl
  | some count =>
      have waiting := sorting.waiting.put_relabel newName id child (count - 1)
      simp only [id] at waiting
      simp only [waiting]
      split
      · rw [List.map_append, List.map_singleton]
      · rfl

theorem foldl_release_rename (children : List StepRef) (sorting : Sorting) :
    (children.map newName).foldl release (sorting.rename newName) =
      (children.foldl release sorting).rename newName := by
  induction children generalizing sorting with
  | nil => rfl
  | cons child rest ih => rw [List.map_cons, List.foldl_cons, release_rename, ih, List.foldl_cons]

theorem startSorting_rename (graph : PlanGraph) :
    (graph.rename newName).startSorting = graph.startSorting.rename newName := by
  have queue : (graph.rename newName).startSorting.queue = graph.startSorting.queue.map newName := by
    simp [startSorting, List.filter_map, Function.comp_def]
  have waiting : (graph.rename newName).startSorting.waiting =
      graph.startSorting.waiting.relabel newName id := by
    simp [startSorting, Entries.relabel]
  exact congr (congrArg (Sorting.mk · []) queue) waiting

theorem sortFrom_rename (graph : PlanGraph) (bound : Nat) (sorting : Sorting) :
    (graph.rename newName).sortFrom bound (sorting.rename newName) =
      (graph.sortFrom bound sorting).rename newName := by
  induction bound generalizing sorting with
  | zero => rfl
  | succ bound ih =>
      obtain ⟨queue, order, waiting⟩ := sorting
      cases queue with
      | nil => rfl
      | cons step queue =>
          have later := ih ((graph.children step).foldl release ⟨queue, order ++ [step], waiting⟩)
          rw [← foldl_release_rename, ← children_rename] at later
          simpa only [sortFrom, Sorting.rename, List.map_cons, List.map_append, List.map_nil]
            using later

/-- A renamed graph has the renamed order. -/
theorem toOption_topologicalOrder_rename (graph : PlanGraph) :
    (graph.rename newName).topologicalOrder.toOption =
      graph.topologicalOrder.toOption.map (List.map newName) := by
  unfold topologicalOrder
  rw [startSorting_rename, nodes_rename, List.length_map, sortFrom_rename]
  simp only [Sorting.rename, List.length_map]
  split <;> rfl

end PlanGraph

end SemanticQuery
