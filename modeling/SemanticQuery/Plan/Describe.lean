import SemanticQuery.Plan.Basic

/-!
# Steps in words

A step is described by its operation's template, filled with the descriptions of its arguments.
Descriptions follow references; the number of steps bounds how far.
-/

namespace SemanticQuery.Plan

def isGrouping (plan : Plan) (a : Argument) : Bool :=
  match a.reference?.bind plan.step? with
  | some step => step.operation.category = .aggregation
  | none => false

def describeKeys (describe : Argument → String) : List Argument → List String
  | [] => []
  | [key] => [describe key]
  | key :: direction :: rest =>
      (describe key ++ " (" ++ Text.lower direction.content ++ ")") :: describeKeys describe rest

/-- An analysis: its target and its other values in the template, then the grouping. -/
def describeAnalysis (template : Template) (describe : Argument → String)
    (values groupings : List Argument) : String :=
  let target := (values.head?.map describe).getD ""
  Template.fill (Template.aim template.text target) (values.map describe) ++
    String.join (groupings.map fun grouping => " " ++ describe grouping)

def describeWith (plan : Plan) (describe : Argument → String) (step : Step) : String :=
  let template := step.operation.descriptor.template
  match step.operation.category with
  | .sort =>
      Template.fill template.text [String.intercalate ", " (describeKeys describe step.arguments)]
  | .output => String.intercalate "; " (step.arguments.map describe)
  | .analysis =>
      describeAnalysis template describe (step.arguments.filter fun a => !plan.isGrouping a)
        (step.arguments.filter plan.isGrouping)
  | _ =>
      match step.operation.maxArguments with
      | none => template.spread (step.arguments.map describe)
      | some _ => Template.fill template.text (step.arguments.map describe)

/-- Describes an argument. A return or collect step is described by its first argument. The first
argument bounds how many references are followed in a row. -/
def describeArgument (plan : Plan) : Nat → Argument → String
  | _, .literal value => value.content
  | 0, .reference _ => ""
  | bound + 1, .reference target =>
      match plan.step? target with
      | none => target.text
      | some step =>
          match step.operation with
          | .output | .collect =>
              (step.arguments.head?.map (plan.describeArgument bound)).getD ""
          | _ => plan.describeWith (plan.describeArgument bound) step

def describeStep (plan : Plan) (step : Step) : String :=
  plan.describeWith (plan.describeArgument plan.steps.length) step

end SemanticQuery.Plan
