import SemanticQuery.Entries
import SemanticQuery.Error
import SemanticQuery.Step.Basic

/-!
# The dependency graph of a plan

An edge runs from a step to every step that depends on it. The edges are kept twice, by the step
they lead to and by the step they start at, and each edge enters both maps at once. The topological
order takes steps first come, first served: a step joins the queue when the last of its parents
leaves it.
-/

namespace SemanticQuery

/-- Edges among steps, by either end. -/
structure Links where
  /-- The steps that each step depends on, in argument order. -/
  parents : Entries StepRef (List StepRef)
  /-- The steps that depend on each step, in plan order. -/
  children : Entries StepRef (List StepRef)
  deriving DecidableEq

/-- Adds an edge from a parent to a child unless it is there. -/
def Links.add (child : StepRef) (links : Links) (parent : StepRef) : Links :=
  if parent ∈ links.parents.listed child then links
  else ⟨links.parents.push child parent, links.children.push parent child⟩

structure PlanGraph where
  /-- The steps, in plan order. -/
  nodes : List StepRef
  links : Links
  deriving DecidableEq

namespace PlanGraph

def parents (graph : PlanGraph) (step : StepRef) : List StepRef :=
  graph.links.parents.listed step

def children (graph : PlanGraph) (step : StepRef) : List StepRef :=
  graph.links.children.listed step

def edges (graph : PlanGraph) : List (StepRef × StepRef) :=
  graph.nodes.flatMap fun child => (graph.parents child).map fun parent => (parent, child)

def sinks (graph : PlanGraph) : List StepRef :=
  graph.nodes.filter fun step => (graph.children step).isEmpty

/-- Links a step to its next dependency, which has to be among the given references. -/
def linkDependency (known : List StepRef) (step : Step) (links : Links) (parent : StepRef) :
    Except Error Links :=
  if parent ∈ known then .ok (links.add step.reference parent)
  else .error (.undefinedReference step.reference.text step.operation.name parent.text)

def linkStep (known : List StepRef) (links : Links) (step : Step) : Except Error Links :=
  step.dependencies.foldlM (linkDependency known step) links

/-- The graph of steps with distinct references, if all their dependencies are among them. -/
def ofSteps (steps : List Step) : Except Error PlanGraph := do
  let nodes := steps.map (·.reference)
  let links ← steps.foldlM (linkStep nodes) ⟨[], []⟩
  return ⟨nodes, links⟩

structure Sorting where
  /-- Steps all of whose parents are in order, first come first. -/
  queue : List StepRef
  /-- Steps in order. -/
  order : List StepRef
  /-- For each step, how many of its parents are not in order yet. -/
  waiting : Entries StepRef Nat

/-- Counts one parent of a step as done; the step joins the queue when none is left. -/
def release (sorting : Sorting) (child : StepRef) : Sorting :=
  match sorting.waiting.get? child with
  | none => sorting
  | some count =>
      { sorting with
        queue := if count - 1 = 0 then sorting.queue ++ [child] else sorting.queue
        waiting := sorting.waiting.put child (count - 1) }

def startSorting (graph : PlanGraph) : Sorting where
  queue := graph.nodes.filter fun step => (graph.parents step).isEmpty
  order := []
  waiting := graph.nodes.map fun step => (step, (graph.parents step).length)

/-- Takes steps from the queue until it is empty; the first argument bounds their number. -/
def sortFrom (graph : PlanGraph) : Nat → Sorting → Sorting
  | 0, sorting => sorting
  | bound + 1, sorting =>
      match sorting.queue with
      | [] => sorting
      | step :: queue =>
          let taken := { sorting with queue := queue, order := sorting.order ++ [step] }
          sortFrom graph bound ((graph.children step).foldl release taken)

/-- The steps in an order with parents before their children. The steps that are left out of the
sort lie on a cycle or depend on one. -/
def topologicalOrder (graph : PlanGraph) : Except Error (List StepRef) :=
  let order := (graph.sortFrom graph.nodes.length graph.startSorting).order
  if order.length = graph.nodes.length then .ok order
  else .error (.cycle ((graph.nodes.filter (· ∉ order)).map StepRef.text))

end PlanGraph

end SemanticQuery
