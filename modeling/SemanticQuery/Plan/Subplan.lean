import SemanticQuery.Plan.Graph

/-!
# Subplans

A plan is split at its return steps: each subplan holds a return step, its root, and the steps
that lead to it without passing another return. Subplans are found from the root of the whole
plan inwards and numbered when they are complete, so inner subplans come before those that read
them.
-/

namespace SemanticQuery

structure SubplanId where
  number : Nat
  deriving DecidableEq

def SubplanId.text (id : SubplanId) : String :=
  "alias_" ++ id.number.repr

/-- The steps that are compiled into one SELECT. -/
structure Subplan where
  id : SubplanId
  root : StepRef
  /-- All its steps, as a set sorted by their text. -/
  members : List StepRef
  deriving DecidableEq

namespace Subplan

def has (subplan : Subplan) (step : StepRef) : Bool :=
  step ∈ subplan.members

/-- What is reached from a root by going to parents and stopping at return steps. -/
structure Region where
  /-- The root and the other steps reached, as they were found. -/
  members : List StepRef
  /-- The return steps at which the search stopped, as they were found. -/
  inner : List StepRef

/-- Explores from a stack of steps; of the parents of a step the last is explored first. The first
argument bounds the number of steps taken from the stack. -/
def explore (graph : PlanGraph) (isOutput : StepRef → Bool) : Nat → List StepRef → Region → Region
  | 0, _, region => region
  | _ + 1, [], region => region
  | bound + 1, step :: stack, region =>
      if step ∈ region.members ∨ step ∈ region.inner then explore graph isOutput bound stack region
      else if isOutput step then
        explore graph isOutput bound stack { region with inner := region.inner ++ [step] }
      else
        explore graph isOutput bound ((graph.parents step).reverse ++ stack)
          { region with members := region.members ++ [step] }

/-- The region of a root. No edge is followed twice. -/
def regionOf (graph : PlanGraph) (isOutput : StepRef → Bool) (root : StepRef) : Region :=
  explore graph isOutput (graph.edges.length + 1) (graph.parents root).reverse ⟨[root], []⟩

/-- The roots from a root inwards, each after the roots found in its region, with their members. A
root that is found in several regions occurs for each of them. The first argument bounds the
nesting. -/
def roots (graph : PlanGraph) (isOutput : StepRef → Bool) :
    Nat → StepRef → List (StepRef × List StepRef)
  | 0, _ => []
  | bound + 1, root =>
      let region := regionOf graph isOutput root
      region.inner.flatMap (roots graph isOutput bound) ++
        [(root, sortedSet StepRef.text region.members)]

def addDistinct (subplans : List Subplan) (subplan : Subplan) : List Subplan :=
  if subplans.any fun other => other.members = subplan.members then subplans
  else subplans ++ [subplan]

/-- The distinct subplans from a terminal step inwards, inner ones first. Repetitions are left out
but take part in the numbering. -/
def discover (graph : PlanGraph) (isOutput : StepRef → Bool) (terminal : StepRef) : List Subplan :=
  let found := (roots graph isOutput graph.nodes.length terminal).zipIdx.map fun item =>
    ({ id := ⟨item.2⟩, root := item.1.1, members := item.1.2 } : Subplan)
  found.foldl addDistinct []

/-- What is wrong with the place of a step: it has none, or it is no return and has several. -/
def placeProblem? (subplans : List Subplan) (step : Step) : Option Error :=
  let owners := subplans.filter fun subplan => subplan.has step.reference
  if owners.isEmpty then some (.unplacedStep step.reference.text)
  else if 1 < owners.length && !step.isOutput then
    some (.sharedStep step.reference.text (owners.map fun subplan => subplan.id.text))
  else none

def isOutputIn (steps : List Step) (reference : StepRef) : Bool :=
  (steps.find? fun step => step.reference = reference).any Step.isOutput

/-- Splits steps into subplans from a terminal step; every step belongs to one. -/
def decompose (graph : PlanGraph) (steps : List Step) (terminal : StepRef) :
    Except Error (List Subplan) :=
  let subplans := discover graph (isOutputIn steps) terminal
  match steps.findSome? (placeProblem? subplans) with
  | some error => .error error
  | none => .ok subplans

end Subplan

end SemanticQuery
