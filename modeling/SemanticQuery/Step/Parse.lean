import SemanticQuery.Error
import SemanticQuery.Step.Basic
import SemanticQuery.Step.Token

/-!
# Reading steps

A step's text is split into tokens, its operation is looked up, and the number and the form of its
arguments are checked. The form is checked as far as the step alone tells.
-/

namespace SemanticQuery

/-- The argument that a token denotes; parentheses denote none. -/
def Argument.ofToken? : Token → Option Argument
  | .quoted text => some (.literal (.quoted text))
  | .word text =>
      match StepRef.ofText? text with
      | some target => some (.reference target)
      | none => some (.literal (.bare text))
  | .opening | .closing => none

namespace Step

def invalidArgument (step : Step) (position : Nat) (message : String) : Error :=
  .invalidArgument step.reference.text step.operation.name position message

def checkArity (step : Step) : Except Error Unit :=
  let operation := step.operation
  let found := step.arguments.length
  if found < operation.minArguments || operation.maxArguments.any (· < found) then
    .error (.arityMismatch step.reference.text operation.name
      (ArgumentGroup.arity operation.descriptor.groups) found)
  else .ok ()

def checkReferencesOnly (step : Step) : Except Error Unit :=
  match step.arguments.findIdx? fun a => a.reference?.isNone with
  | some position => .error (step.invalidArgument position "expected a step reference")
  | none => .ok ()

/-- What is wrong with an argument of a sort: keys are references and stand at even positions,
directions follow them. -/
def sortProblem? (position : Nat) (a : Argument) : Option String :=
  if position % 2 = 0 then
    if a.reference?.isNone then some "expected a reference to the sort key" else none
  else
    match a.literal?.bind fun literal => Direction.ofText? literal.content with
    | some _ => none
    | none => some s!"expected asc or desc, found '{a.content}'"

def checkSort (step : Step) : Except Error Unit :=
  if step.arguments.length % 2 ≠ 0 then
    .error (step.invalidArgument step.arguments.length "expected (reference, asc|desc) pairs")
  else
    match step.arguments.zipIdx.findSome? fun item =>
      (sortProblem? item.2 item.1).map fun message => (item.2, message) with
    | some (position, message) => .error (step.invalidArgument position message)
    | none => .ok ()

def isNatural (a : Argument) : Bool :=
  match a.literal?.map Literal.toValue with
  | some (.integer value) => 0 ≤ value
  | _ => false

def checkShape (step : Step) : Except Error Unit :=
  match step.operation with
  | .retrieveEntity =>
      if (step.arguments.head?.bind Argument.literal?).isNone then
        .error (step.invalidArgument 0 "expected an entity name")
      else .ok ()
  | .retrieveAttribute =>
      if (step.arguments.head?.bind Argument.reference?).isNone then
        .error (step.invalidArgument 0 "expected a reference to an entity or return step")
      else .ok ()
  | .collect | .groupBy | .output | .rowNumber => step.checkReferencesOnly
  | .sort => step.checkSort
  | .limit =>
      if step.arguments.head?.any isNatural then .ok ()
      else .error (step.invalidArgument 0 "expected a non-negative integer")
  | _ => .ok ()

def parse (reference : StepRef) (text : String) : Except Error Step :=
  match Token.splitStep text with
  | .error fault =>
      .error (.malformedStep reference.text text
        s!"{fault.cause.message} at position {fault.position}")
  | .ok (name, tokens) =>
      match Operation.ofName? name with
      | none => .error (.unknownOperation (some reference.text) name)
      | some operation => do
          let step : Step := ⟨reference, operation, tokens.filterMap Argument.ofToken?⟩
          step.checkArity
          step.checkShape
          .ok step

end Step

end SemanticQuery
