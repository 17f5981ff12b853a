import SemanticQuery.Operation.Descriptor
import SemanticQuery.Text.Search
import SemanticQuery.Value

/-!
# Steps

A step applies an operation to arguments. An argument is a reference to another step or a literal.
Every step has a canonical text, in which quoted literals stand between double quotes.
-/

namespace SemanticQuery

inductive Direction where
  | ascending
  | descending
  deriving DecidableEq

namespace Direction

def name : Direction → String
  | .ascending => "asc"
  | .descending => "desc"

def ofText? (text : String) : Option Direction :=
  match Text.lower text with
  | "asc" => some .ascending
  | "desc" => some .descending
  | _ => none

end Direction

def isNameChar (c : Char) : Bool :=
  c.isAlphanum || c = '_'

/-- Whether a text can name a step: ASCII letters, digits and underscores, and at least one. -/
def isStepName (text : String) : Bool :=
  !text.toList.isEmpty && text.toList.all isNameChar

/-- The name of a step. It is written between bars. -/
structure StepRef where
  name : String
  isName : isStepName name = true
  deriving DecidableEq

namespace StepRef

def text (reference : StepRef) : String :=
  "|" ++ reference.name ++ "|"

def innerText? (text : String) : Option String :=
  match text.toList with
  | '|' :: rest =>
      match rest.reverse with
      | '|' :: inner => some (String.ofList inner.reverse)
      | _ => none
  | _ => none

def ofText? (text : String) : Option StepRef :=
  match innerText? text with
  | some name => if h : isStepName name = true then some ⟨name, h⟩ else none
  | none => none

end StepRef

inductive Literal where
  /-- Written between quotes. -/
  | quoted (text : String)
  /-- Written as a word. -/
  | bare (text : String)
  deriving DecidableEq

namespace Literal

def content : Literal → String
  | .quoted text => text
  | .bare text => text

/-- A quoted literal is text; a bare one may be a number. -/
def toValue : Literal → Value
  | .quoted text => .text text
  | .bare text => Value.ofWord text

/-- A character of a quoted literal, with a backslash before quotes and backslashes. -/
def escapeChar (c : Char) : List Char :=
  if c = '"' || c = '\\' then ['\\', c] else [c]

def text : Literal → String
  | .quoted text => String.ofList ('"' :: (text.toList.flatMap escapeChar ++ ['"']))
  | .bare text => text

end Literal

inductive Argument where
  | reference (target : StepRef)
  | literal (value : Literal)
  deriving DecidableEq

namespace Argument

def reference? : Argument → Option StepRef
  | .reference target => some target
  | .literal _ => none

def literal? : Argument → Option Literal
  | .literal value => some value
  | .reference _ => none

def content : Argument → String
  | .reference target => target.text
  | .literal value => value.content

def text : Argument → String
  | .reference target => target.text
  | .literal value => value.text

end Argument

structure Step where
  reference : StepRef
  operation : Operation
  arguments : List Argument
  deriving DecidableEq

namespace Step

def references (step : Step) : List StepRef :=
  step.arguments.filterMap Argument.reference?

/-- The steps that a step depends on, in order. An attribute's retrieval depends on what it reads
from; its second argument names the attribute, even when it is written as a reference. -/
def dependencies (step : Step) : List StepRef :=
  match step.operation with
  | .retrieveAttribute => (step.arguments.take 1).filterMap Argument.reference?
  | _ => step.references

def text (step : Step) : String :=
  "(" ++ step.operation.name ++ String.join (step.arguments.map fun a => " " ++ a.text) ++ ")"

def isOutput (step : Step) : Bool :=
  step.operation = .output

end Step

end SemanticQuery
