import SemanticQuery.Diagnostic

/-!
# Causes of failure

Every way in which reading, planning, resolving or running a query can fail, with what it is
about. `Error.diagnostic` gives each cause its code, its wording and its advice.
-/

namespace SemanticQuery

inductive Error where
  /-- A plan key that is not a step reference. -/
  | invalidStepReference (reference : String)
  /-- A step text that cannot be read. -/
  | malformedStep (step text message : String)
  | unknownOperation (step : Option String) (name : String)
  | arityMismatch (step operation expected : String) (found : Nat)
  | invalidArgument (step operation : String) (position : Nat) (message : String)
  | semanticTypeMismatch (step : Option String) (operation operand expected found : String)
  | unsupportedReturnArgument (step argument category : String)
  | duplicateReturnClause (step clause : String)
  | emptyPlan
  | noTerminal
  | multipleTerminals (steps : List String)
  | terminalNotReturn (step operation : String)
  | cycle (steps : List String)
  | unplacedStep (step : String)
  | sharedStep (step : String) (subplans : List String)
  | undefinedReference (step operation reference : String)
  | missingParentSubplan (step reference : String)
  | ambiguousParentSubplan (step reference : String) (candidates : List String)
  | notAReturn (step reference : String)
  | notAnEntity (step reference : String)
  | unresolvedField (step operation reference : String)
  | columnNotExposed (step : Option String) (subplan column : String)
  | ambiguousColumn (step subplan column : String) (candidates : List String)
  | strandedJoin (subplan join : String) (joined : List String)
  | noSource (subplan : String)
  /-- The database refused a statement. -/
  | execution (message sql : String)
  | unknownEntity (name : String)
  | unknownAttribute (entity name : String)
  | unknownJoin (name : String)
  | unknownTable (table : String)
  | noJoinPath (source target : String)
  /-- A ring document with all the problems found in it. -/
  | invalidRing (ring : String) (problems : List String)
  | unreadableRing (path reason : String)
  /-- JSON that is malformed or has another shape than expected. -/
  | malformedDocument (message : String)
  | unreadableFile (path reason : String)
  | unsupported (message : String)
  /-- A broken invariant, with the place it was noticed at when that is known. -/
  | internal (reason : String) (place : Option (String × Nat))
  deriving DecidableEq

namespace Error

/-- A broken invariant noticed at no particular place. -/
def invariant (reason : String) : Error :=
  .internal reason none

def listing (items : List String) : String :=
  String.intercalate ", " items

def message : Error → String
  | .invalidStepReference reference => s!"'{reference}' is not a step reference"
  | .malformedStep step _ message => s!"malformed step {step}: {message}"
  | .unknownOperation _ name => s!"unknown operation '{name}'"
  | .arityMismatch _ operation expected found =>
      s!"{operation} expects {expected} argument(s), found {found}"
  | .invalidArgument _ operation position message =>
      s!"invalid argument {position} to {operation}: {message}"
  | .semanticTypeMismatch _ operation operand expected found =>
      s!"{operation} cannot take '{operand}' of type {found}; expected one of {expected}"
  | .unsupportedReturnArgument _ argument category =>
      s!"return cannot take {argument}, a {category} step"
  | .duplicateReturnClause _ clause => s!"return takes at most one {clause} predicate"
  | .emptyPlan => "plan has no steps"
  | .noTerminal => "plan has no terminal step"
  | .multipleTerminals steps => s!"plan has {steps.length} terminal steps: {listing steps}"
  | .terminalNotReturn step operation => s!"terminal step {step} is a {operation}, not a return"
  | .cycle steps => s!"plan contains a cycle through {listing steps}"
  | .unplacedStep step => s!"step {step} cannot be placed in any subplan"
  | .sharedStep step subplans =>
      s!"step {step} belongs to more than one subplan ({listing subplans})"
  | .undefinedReference step _ reference => s!"step {step} references undefined step {reference}"
  | .missingParentSubplan step reference =>
      s!"no subplan contains {reference}, referenced by {step}"
  | .ambiguousParentSubplan _ reference candidates =>
      s!"ambiguous parent plan for {reference}: found in {listing candidates}"
  | .notAReturn _ reference => s!"{reference} lies in another subplan but is not its return step"
  | .notAnEntity _ reference => s!"{reference} must be a retrieve_entity step"
  | .unresolvedField _ _ reference => s!"{reference} does not produce a field"
  | .columnNotExposed _ subplan column => s!"column '{column}' is not returned by {subplan}"
  | .ambiguousColumn _ subplan column candidates =>
      s!"column '{column}' matches several columns of {subplan}: {listing candidates}"
  | .strandedJoin subplan join _ =>
      s!"join '{join}' in {subplan} does not connect to any joined table"
  | .noSource subplan => s!"{subplan} has no data source"
  | .execution message _ => s!"query execution failed: {message}"
  | .unknownEntity name => s!"unknown entity '{name}'"
  | .unknownAttribute entity name => s!"entity '{entity}' has no attribute '{name}'"
  | .unknownJoin name => s!"unknown join '{name}'"
  | .unknownTable table => s!"unknown table '{table}'"
  | .noJoinPath source target => s!"no relationship path between '{source}' and '{target}'"
  | .invalidRing ring _ => s!"ring '{ring}' is invalid"
  | .unreadableRing path reason => s!"cannot read ring from '{path}': {reason}"
  | .malformedDocument message => message
  | .unreadableFile path reason => s!"cannot read {path}: {reason}"
  | .unsupported message => message
  | .internal reason _ => reason

/-- The code by which a cause is looked up, and its kind. -/
def classification : Error → String × FailureKind
  | .invalidStepReference .. => ("SYNTAX_001", .grammar)
  | .malformedStep .. => ("SYNTAX_002", .grammar)
  | .unknownOperation .. => ("ONTOLOGY_001", .ontology)
  | .arityMismatch .. => ("ONTOLOGY_002", .ontology)
  | .invalidArgument .. => ("ONTOLOGY_003", .ontology)
  | .semanticTypeMismatch .. => ("ONTOLOGY_004", .ontology)
  | .unsupportedReturnArgument .. => ("ONTOLOGY_005", .ontology)
  | .duplicateReturnClause .. => ("ONTOLOGY_006", .ontology)
  | .emptyPlan => ("GRAPH_001", .graph)
  | .noTerminal => ("GRAPH_002", .graph)
  | .multipleTerminals .. => ("GRAPH_003", .graph)
  | .terminalNotReturn .. => ("GRAPH_004", .graph)
  | .cycle .. => ("GRAPH_005", .graph)
  | .unplacedStep .. => ("GRAPH_006", .graph)
  | .sharedStep .. => ("GRAPH_007", .graph)
  | .undefinedReference .. => ("RESOLUTION_001", .resolution)
  | .missingParentSubplan .. => ("RESOLUTION_002", .resolution)
  | .ambiguousParentSubplan .. => ("RESOLUTION_003", .resolution)
  | .notAReturn .. => ("RESOLUTION_004", .resolution)
  | .notAnEntity .. => ("RESOLUTION_005", .resolution)
  | .unresolvedField .. => ("RESOLUTION_006", .resolution)
  | .columnNotExposed .. => ("RESOLUTION_007", .resolution)
  | .strandedJoin .. => ("RESOLUTION_008", .resolution)
  | .noSource .. => ("RESOLUTION_009", .resolution)
  | .ambiguousColumn .. => ("RESOLUTION_010", .resolution)
  | .execution .. => ("EXECUTE_001", .execution)
  | .unknownEntity .. => ("RING_001", .resolution)
  | .unknownAttribute .. => ("RING_002", .resolution)
  | .unknownJoin .. => ("RING_003", .resolution)
  | .unknownTable .. => ("RING_004", .resolution)
  | .noJoinPath .. => ("RING_005", .resolution)
  | .invalidRing .. => ("RING_006", .configuration)
  | .unreadableRing .. => ("RING_007", .configuration)
  | .malformedDocument .. => ("SERDE_001", .configuration)
  | .unreadableFile .. => ("IO_001", .configuration)
  | .unsupported .. => ("CONFIG_001", .configuration)
  | .internal .. => ("INTERNAL_001", .internal)

def code (error : Error) : String :=
  error.classification.1

def kind (error : Error) : FailureKind :=
  error.classification.2

/-- The step a cause was raised for and the operation it names. -/
def place : Error → Option String × Option String
  | .malformedStep step .. => (some step, none)
  | .unknownOperation step name => (step, some name)
  | .arityMismatch step operation .. => (some step, some operation)
  | .invalidArgument step operation .. => (some step, some operation)
  | .semanticTypeMismatch step operation .. => (step, some operation)
  | .unsupportedReturnArgument step .. => (some step, some "return")
  | .duplicateReturnClause step _ => (some step, some "return")
  | .terminalNotReturn step operation => (some step, some operation)
  | .unplacedStep step => (some step, none)
  | .sharedStep step _ => (some step, none)
  | .undefinedReference step operation _ => (some step, some operation)
  | .missingParentSubplan step _ => (some step, some "retrieve_attribute")
  | .ambiguousParentSubplan step .. => (some step, some "retrieve_attribute")
  | .notAReturn step _ => (some step, some "retrieve_attribute")
  | .notAnEntity step _ => (some step, some "retrieve_attribute")
  | .unresolvedField step operation _ => (some step, some operation)
  | .columnNotExposed step .. => (step, none)
  | .ambiguousColumn step .. => (some step, some "retrieve_attribute")
  | _ => (none, none)

/-- The remark that stands under the message. -/
def label : Error → Option String
  | .malformedStep _ text _ => some text
  | .unknownEntity _ => some "entity is not part of the ring"
  | .unknownAttribute .. => some "attribute is not declared on the entity"
  | .unknownJoin _ => some "join is not declared in the data source"
  | .unknownTable _ => some "table is not declared in the data source"
  | .noJoinPath .. => some "entities are not connected by any relationship"
  | .invalidRing _ problems => some s!"{problems.length} problem(s) found"
  | .malformedDocument _ => some "serialization failed"
  | .unreadableFile .. => some "file could not be read"
  | .unsupported _ => some "unsupported configuration"
  | .internal .. => some "internal invariant violated"
  | _ => none

def help : Error → Option String
  | .invalidStepReference _ => some "step references are written as |identifier|"
  | .malformedStep .. => some "a step is written as (operation arg0 arg1 ...)"
  | .unknownOperation .. => some "use one of the registered operations"
  | .unsupportedReturnArgument .. =>
      some "return accepts a collect step followed by filter, sort and limit steps"
  | .duplicateReturnClause .. => some "combine the predicates with 'and'"
  | .noTerminal => some "every plan ends in exactly one return step"
  | .multipleTerminals _ => some "every plan ends in exactly one return step; remove unused steps"
  | .sharedStep .. => some "give each subplan its own steps"
  | .notAReturn .. => some "read values of another subplan through its return step"
  | .columnNotExposed .. => some "collect the column in the subplan's return step"
  | .ambiguousColumn .. => some "name the column in full, as in Entity//attribute"
  | .unknownEntity _ => some "check the entity name in the retrieve_entity step"
  | .unknownAttribute entity _ =>
      some s!"declare the attribute on '{entity}' or fix its name in the plan"
  | .noJoinPath .. => some "declare a relationship connecting the two entities"
  | .malformedDocument _ => some "check that the document is valid JSON of the expected shape"
  | .internal .. => some
      "this is a bug in the compiler, please report it together with the plan that triggered it"
  | _ => none

def notes : Error → List String
  | .strandedJoin _ _ joined => ["joined tables: " ++ listing joined]
  | .execution _ sql => [sql]
  | .invalidRing _ problems => problems
  | .internal _ (some (file, line)) => [s!"raised at {file}:{line}"]
  | _ => []

def diagnostic (error : Error) : Diagnostic where
  code := error.code
  kind := error.kind
  message := error.message
  step := error.place.1
  operation := error.place.2
  label := error.label
  help := error.help
  notes := error.notes

end Error

end SemanticQuery
