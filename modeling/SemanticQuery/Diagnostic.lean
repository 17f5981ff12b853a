import SemanticQuery.Json.Decode
import SemanticQuery.Json.Reader
import SemanticQuery.Text.Blank

/-!
# Diagnostics

A diagnostic is an error as it is shown: a code, a message, the step it concerns, advice, and
possibly the diagnostic that caused it. `Diagnostic.render` is the text for people and
`Diagnostic.toJson` the record for programs.
-/

namespace SemanticQuery

/-- The kinds of failure. Every failure has exactly one. -/
inductive FailureKind where
  | grammar
  | ontology
  | graph
  | resolution
  | execution
  | configuration
  | internal
  deriving DecidableEq

namespace FailureKind

def title : FailureKind → String
  | .grammar => "SyntaxError"
  | .ontology => "OntologyError"
  | .graph => "GraphError"
  | .resolution => "ResolutionError"
  | .execution => "ExecutionError"
  | .configuration => "ConfigurationError"
  | .internal => "InternalError"

/-- The name in JSON. -/
def key : FailureKind → String
  | .grammar => "syntax"
  | .ontology => "ontology"
  | .graph => "graph"
  | .resolution => "resolution"
  | .execution => "execution"
  | .configuration => "configuration"
  | .internal => "internal"

def all : List FailureKind :=
  [.grammar, .ontology, .graph, .resolution, .execution, .configuration, .internal]

def ofKey? (text : String) : Option FailureKind :=
  all.find? fun kind => kind.key = text

end FailureKind

structure Diagnostic where
  code : String
  kind : FailureKind
  message : String
  /-- The reference of the step the failure was raised for. -/
  step : Option String := none
  /-- The name of that step's operation. -/
  operation : Option String := none
  label : Option String := none
  help : Option String := none
  notes : List String := []
  cause : Option Diagnostic := none

namespace Diagnostic

def addNote (diagnostic : Diagnostic) (note : String) : Diagnostic :=
  { diagnostic with notes := diagnostic.notes ++ [note] }

def placeLines (indent : String) : Option String → Option String → List String
  | some step, some operation => [indent ++ "  --> step " ++ step ++ " (" ++ operation ++ ")\n"]
  | some step, none => [indent ++ "  --> step " ++ step ++ "\n"]
  | none, some operation => [indent ++ "  --> operation " ++ operation ++ "\n"]
  | none, none => []

def partLine (start : String) : Option String → List String
  | some text => [start ++ text ++ "\n"]
  | none => []

/-- The lines of a diagnostic, each level of causes two blanks further in. -/
def linesAt (indent : String) : Diagnostic → List String
  | ⟨code, _, message, step, operation, label, help, notes, cause⟩ =>
      [indent ++ "error[" ++ code ++ "]: " ++ message ++ "\n"] ++
        placeLines indent step operation ++
        partLine (indent ++ "   = ") label ++
        partLine ("\n" ++ indent ++ "help: ") help ++
        notes.map (fun note => "\n" ++ indent ++ "note: " ++ note ++ "\n") ++
        match cause with
        | none => []
        | some inner => ("\n" ++ indent ++ "caused by:\n") :: inner.linesAt (indent ++ "  ")

def render (diagnostic : Diagnostic) : String :=
  String.join (diagnostic.linesAt "")

/-- The text without the blanks at its end. -/
def summary (diagnostic : Diagnostic) : String :=
  Text.trimEnd diagnostic.render

def partJson : Option String → Json
  | some text => .string text
  | none => .null

/-- The record of a diagnostic, with `null` for absent parts. -/
def toJson : Diagnostic → Json
  | ⟨code, kind, message, step, operation, label, help, notes, cause⟩ =>
      .object [("code", .string code), ("kind", .string kind.key), ("message", .string message),
        ("step", partJson step), ("operation", partJson operation), ("label", partJson label),
        ("help", partJson help), ("notes", .array (notes.map .string)),
        ("cause", match cause with
          | none => .null
          | some inner => inner.toJson)]

def kindOfJson : Json.Decoder FailureKind := fun json => do
  let name ← Json.asName json
  match FailureKind.ofKey? name with
  | some kind => .ok kind
  | none => Json.expected "a kind of failure"

/-- Decodes a diagnostic whose causes are nested at most as deep as the first argument. -/
def ofJsonAt : Nat → Json.Decoder Diagnostic
  | 0, _ => Json.expected "a shallower diagnostic"
  | depth + 1, json => do
      let record ← Json.Record.ofJson
        ["code", "kind", "message", "step", "operation", "label", "help", "notes", "cause"] json
      .ok {
        code := ← record.required "code" Json.asString
        kind := ← record.required "kind" kindOfJson
        message := ← record.required "message" Json.asString
        step := ← record.optional "step" Json.asString
        operation := ← record.optional "operation" Json.asString
        label := ← record.optional "label" Json.asString
        help := ← record.optional "help" Json.asString
        notes := ← record.required "notes" (Json.asList Json.asString)
        cause := ← record.optional "cause" (ofJsonAt depth) }

def ofJson (json : Json) : Except String Diagnostic :=
  ofJsonAt json.depth json

def ofText (text : String) : Except String Diagnostic :=
  Json.scan text >>= ofJson

end Diagnostic

end SemanticQuery
