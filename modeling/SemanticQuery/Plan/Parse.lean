import SemanticQuery.Json.Decode
import SemanticQuery.Json.Reader
import SemanticQuery.Plan.Basic
import SemanticQuery.Step.Parse

/-!
# Reading plans

A raw plan gives the text of each step under its key. Steps are read in order, then the targets of
their references are checked, then the plan is formed.
-/

namespace SemanticQuery.Plan

/-- Reads a step and adds it to those read before. Blanks around its key do not count, and a
reference that is taken is refused before the text is read. -/
def addStep (steps : List Step) (key text : String) : Except Error (List Step) :=
  match StepRef.ofText? (Text.trim key) with
  | none => .error (.invalidStepReference key)
  | some reference =>
      if steps.any fun step => step.reference = reference then
        .error (.malformedStep reference.text text "step is defined more than once")
      else do
        let step ← Step.parse reference text
        .ok (steps ++ [step])

def parseSteps (raw : Entries String String) : Except Error (List Step) :=
  raw.foldlM (fun steps entry => addStep steps entry.1 entry.2) []

/-- The operation that the first argument of some operations must refer to. -/
def expectedTarget? : Operation → Option Operation
  | .output => some .collect
  | .rowNumber => some .sort
  | _ => none

/-- What is wrong with the step that a step's first argument refers to. Missing steps are reported
when the graph is formed. -/
def targetProblem? (steps : List Step) (step : Step) : Option Error :=
  match expectedTarget? step.operation, step.arguments.head? with
  | some expected, some (.reference target) =>
      match stepIn? steps target with
      | some found =>
          if found.operation = expected then none
          else some (step.invalidArgument 0
            s!"expected a {expected.name} step, {target.text} is a {found.operation.name}")
      | none => none
  | _, _ => none

def parse (raw : Entries String String) : Except Error Plan := do
  let steps ← parseSteps raw
  match steps.findSome? (targetProblem? steps) with
  | some error => .error error
  | none => ofSteps steps

def parseJson (text : String) : Except Error Plan :=
  match Json.read text >>= Json.asMembers Json.asString with
  | .ok members => parse (Entries.ofList members)
  | .error reason => .error (.malformedDocument reason)

end SemanticQuery.Plan
