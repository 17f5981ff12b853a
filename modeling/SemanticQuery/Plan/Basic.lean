import SemanticQuery.Plan.Subplan

/-!
# Plans

A plan is a list of steps with distinct references that depend on each other without cycles and
end in one return step. It knows its graph, its order and its subplans.
-/

namespace SemanticQuery

structure Plan where
  steps : List Step
  graph : PlanGraph
  /-- The steps in an order with parents before their children. -/
  order : List StepRef
  /-- The subplans, inner ones first. -/
  subplans : List Subplan
  /-- The return step that nothing depends on. -/
  terminal : StepRef
  /-- The subplan of the terminal step. -/
  outermost : SubplanId
  deriving DecidableEq

namespace Plan

def stepIn? (steps : List Step) (reference : StepRef) : Option Step :=
  steps.find? fun step => step.reference = reference

/-- The one sink of a graph, which must be a return step. -/
def terminalOf (graph : PlanGraph) (steps : List Step) : Except Error StepRef :=
  match graph.sinks with
  | [] => .error .noTerminal
  | [sink] =>
      match stepIn? steps sink with
      | some step =>
          if step.isOutput then .ok sink
          else .error (.terminalNotReturn sink.text step.operation.name)
      | none => .error (.invariant s!"sink {sink.text} is not a plan step")
  | sinks => .error (.multipleTerminals (sinks.map StepRef.text))

def ofSteps (steps : List Step) : Except Error Plan := do
  if steps.isEmpty then .error .emptyPlan
  else
    let graph ← PlanGraph.ofSteps steps
    let order ← graph.topologicalOrder
    let terminal ← terminalOf graph steps
    let subplans ← Subplan.decompose graph steps terminal
    match subplans.find? fun subplan => subplan.root = terminal with
    | some subplan => .ok ⟨steps, graph, order, subplans, terminal, subplan.id⟩
    | none => .error (.invariant s!"no subplan is rooted at terminal {terminal.text}")

def step? (plan : Plan) (reference : StepRef) : Option Step :=
  stepIn? plan.steps reference

/-- The steps of a subplan, parents before their children. -/
def stepsOf (plan : Plan) (subplan : Subplan) : List StepRef :=
  plan.order.filter subplan.has

/-- The subplans that hold a step, apart from one. -/
def othersWith (plan : Plan) (step : StepRef) (except : SubplanId) : List Subplan :=
  plan.subplans.filter fun subplan => subplan.id ≠ except && subplan.has step

def texts (plan : Plan) : Entries String String :=
  plan.steps.map fun step => (step.reference.text, step.text)

end Plan

end SemanticQuery
