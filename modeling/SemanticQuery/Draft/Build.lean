import SemanticQuery.Draft.Basic
import SemanticQuery.Plan.Basic

/-!
# Drafting a plan

The drafts of a plan's subplans, inner ones first. Within a subplan the steps are visited in
topological order; each adds to the draft or to the findings that later steps use.
-/

namespace SemanticQuery

/-- What the steps that were visited stand for. -/
structure Findings where
  handles : Entries StepRef Handle := []
  entities : Entries StepRef String := []
  sorts : Entries StepRef (List (Handle × Direction)) := []
  limits : Entries StepRef Nat := []

namespace Findings

def unresolved (step : Step) (target : StepRef) : Error :=
  .unresolvedField step.reference.text step.operation.name target.text

def handle (findings : Findings) (step : Step) (target : StepRef) : Except Error Handle :=
  match findings.handles.get? target with
  | some found => .ok found
  | none => .error (unresolved step target)

/-- The operands of arguments, without references that are not included. -/
def operands (findings : Findings) (step : Step) (included : StepRef → Bool) :
    List Argument → Except Error (List Operand)
  | [] => .ok []
  | .literal value :: rest => do
      let others ← findings.operands step included rest
      .ok (.literal value :: others)
  | .reference target :: rest =>
      if included target then do
        let found ← findings.handle step target
        let others ← findings.operands step included rest
        .ok (.handle found :: others)
      else findings.operands step included rest

def sortPairs (findings : Findings) (step : Step) :
    List Argument → Except Error (List (Handle × Direction))
  | [] => .ok []
  | [_] => .error (.invariant s!"sort step {step.reference.text} has an unpaired key")
  | .literal _ :: _ :: _ =>
      .error (.invariant s!"sort key of {step.reference.text} is not a reference")
  | .reference target :: direction :: rest => do
      let found ← findings.handle step target
      let others ← findings.sortPairs step rest
      .ok ((found, (Direction.ofText? direction.content).getD .ascending) :: others)

end Findings

namespace Draft

/-- The column of a draft that a literal names: in full, or by the end of a returned column's name
after `//`. -/
def columnNamed (draft : Draft) (step : Step) (name : String) : Except Error String :=
  if draft.fields.has name then .ok name
  else
    match draft.select.filter (Text.endsIn ("//" ++ name)) with
    | [] => .ok name
    | [column] => .ok column
    | candidates => .error (.ambiguousColumn step.reference.text draft.id.text name candidates)

/-- The column of another subplan that a retrieval names, by literal or by the step that produced
it there. -/
def columnRead (draft : Draft) (findings : Findings) (parent : Subplan) (step : Step) :
    Argument → Except Error String
  | .literal value => draft.columnNamed step value.content
  | .reference target =>
      if parent.has target then (findings.handle step target).map Handle.columnName
      else .error (Findings.unresolved step target)

def columnHandle (draft : Draft) (step : Step) (column : String) : Except Error Handle :=
  match draft.fields.get? column with
  | some origin =>
      if draft.exposes column then .ok (.column draft.id column origin)
      else .error (.columnNotExposed (some step.reference.text) draft.id.text column)
  | none => .error (.columnNotExposed (some step.reference.text) draft.id.text column)

/-- The one other subplan that holds a step, which must be its root. -/
def parentOf (plan : Plan) (subplan : Subplan) (step : Step) (target : StepRef) :
    Except Error Subplan :=
  match plan.othersWith target subplan.id with
  | [] => .error (.missingParentSubplan step.reference.text target.text)
  | [parent] =>
      if parent.root = target then .ok parent
      else .error (.notAReturn step.reference.text target.text)
  | parents =>
      .error (.ambiguousParentSubplan step.reference.text target.text
        (parents.map fun parent => parent.id.text))

/-- Reads an attribute of an entity of the subplan, or a column of another subplan, which becomes
a source. -/
def retrieve (plan : Plan) (built : List Draft) (findings : Findings) (subplan : Subplan)
    (draft : Draft) (step : Step) : Except Error (Handle × Draft) :=
  match step.arguments with
  | .reference target :: name :: _ =>
      if subplan.has target then
        match findings.entities.get? target with
        | some entity => .ok (.field entity name.content, draft)
        | none => .error (.notAnEntity step.reference.text target.text)
      else do
        let parent ← parentOf plan subplan step target
        match built.find? fun other => other.id = parent.id with
        | none => .error (.invariant s!"{parent.id.text} is read before it is built")
        | some other =>
            let column ← other.columnRead findings parent step name
            let found ← other.columnHandle step column
            .ok (found, draft.addSource (.subplan parent.id))
  | _ => .error (.invariant
      s!"retrieve_attribute {step.reference.text} does not read a step")

/-- Adds a predicate: to `having` if it needs an aggregate, otherwise to `filter`. Each can be
taken once. -/
def addPredicate (draft : Draft) (step : Step) (predicate : Handle) : Except Error Draft :=
  if predicate.containsAggregate then
    if draft.having.isSome then .error (.duplicateReturnClause step.reference.text "having")
    else .ok { draft with having := some predicate }
  else
    if draft.filter.isSome then .error (.duplicateReturnClause step.reference.text "filter")
    else .ok { draft with filter := some predicate }

def addClause (plan : Plan) (findings : Findings) (step : Step) (draft : Draft)
    (target : StepRef) : Except Error Draft :=
  match plan.step? target with
  | none => .error (.invariant
      s!"return {step.reference.text} reads missing step {target.text}")
  | some clause =>
      match clause.operation.category with
      | .predicate => do
          let predicate ← findings.handle step target
          draft.addPredicate step predicate
      | .sort => .ok (((findings.sorts.get? target).getD []).foldl sortByField draft)
      | .limit => .ok { draft with limit := findings.limits.get? target }
      | category => .error (.unsupportedReturnArgument step.reference.text target.text category.name)

/-- Adds what a return step returns: the columns of its collect step, then its clauses. -/
def addReturn (plan : Plan) (findings : Findings) (draft : Draft) (step : Step) :
    Except Error Draft :=
  match step.references with
  | [] => .error (.invariant s!"return {step.reference.text} does not read a collect step")
  | first :: clauses =>
      match plan.step? first with
      | none => .error (.invariant s!"return {step.reference.text} does not read a collect step")
      | some collect => do
          let handles ← collect.references.mapM (findings.handle collect)
          clauses.foldlM (addClause plan findings step) (handles.foldl returnField draft)

def isNoGrouping (plan : Plan) (target : StepRef) : Bool :=
  match plan.step? target with
  | some step => step.operation.category ≠ .aggregation
  | none => true

def keepExpression (findings : Findings) (draft : Draft) (step : Step) (operands : List Operand) :
    Findings × Draft :=
  let handle := Handle.expression step.operation operands
  ({ findings with handles := findings.handles.put step.reference handle },
    draft.addOrigin handle step.reference)

def sortOf (findings : Findings) (step : Step) : Except Error (List (Handle × Direction)) :=
  match step.arguments with
  | .reference target :: _ =>
      match findings.sorts.get? target with
      | some found => .ok found
      | none => .error (Findings.unresolved step target)
  | _ => .error (.invariant s!"{step.reference.text} does not read a sort step")

def firstContent (step : Step) : String :=
  (step.arguments.head?.map Argument.content).getD ""

def visit (plan : Plan) (built : List Draft) (subplan : Subplan) (findings : Findings)
    (draft : Draft) (step : Step) : Except Error (Findings × Draft) :=
  match step.operation.category with
  | .retrieval =>
      if step.operation = .retrieveEntity then
        let entity := firstContent step
        .ok ({ findings with entities := findings.entities.put step.reference entity },
          draft.addSource (.entity entity))
      else do
        let (found, draft) ← draft.retrieve plan built findings subplan step
        .ok ({ findings with handles := findings.handles.put step.reference found }, draft)
  | .predicate | .arithmetic => do
      let operands ← findings.operands step (fun _ => true) step.arguments
      .ok (keepExpression findings draft step operands)
  | .analysis => do
      let operands ← findings.operands step (isNoGrouping plan) step.arguments
      .ok (keepExpression findings draft step operands)
  | .aggregation => do
      let handles ← step.references.mapM (findings.handle step)
      .ok (findings, handles.foldl groupByField draft)
  | .rowNumber => do
      let pairs ← sortOf findings step
      .ok (keepExpression findings draft step
        (pairs.flatMap fun pair => [.handle pair.1, .direction pair.2]))
  | .sort => do
      let pairs ← findings.sortPairs step step.arguments
      .ok ({ findings with sorts := findings.sorts.put step.reference pairs }, draft)
  | .limit =>
      match Number.nat64? (firstContent step) with
      | some limit => .ok ({ findings with limits := findings.limits.put step.reference limit }, draft)
      | none => .error (.invariant
          s!"limit step {step.reference.text} is not a non-negative integer")
  | .collect => .ok (findings, draft)
  | .output =>
      if step.reference = subplan.root then do
        let draft ← draft.addReturn plan findings step
        .ok (findings, draft)
      else .ok (findings, draft)

def visitRef (plan : Plan) (built : List Draft) (subplan : Subplan) (state : Findings × Draft)
    (reference : StepRef) : Except Error (Findings × Draft) :=
  match plan.step? reference with
  | some step => visit plan built subplan state.1 state.2 step
  | none => .error (.invariant s!"step {reference.text} is missing from the plan")

def buildNext (plan : Plan) (state : Findings × List Draft) (subplan : Subplan) :
    Except Error (Findings × List Draft) := do
  let (findings, draft) ← (plan.stepsOf subplan).foldlM (visitRef plan state.2 subplan)
    (state.1, { id := subplan.id })
  .ok (findings, state.2 ++ [draft])

end Draft

/-- The drafts of a plan's subplans, inner ones first. -/
def Plan.drafts (plan : Plan) : Except Error (List Draft) :=
  (plan.subplans.foldlM (Draft.buildNext plan) ({}, [])).map (·.2)

end SemanticQuery
