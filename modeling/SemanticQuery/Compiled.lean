import SemanticQuery.Draft.Build
import SemanticQuery.Plan.Describe
import SemanticQuery.Plan.Parse
import SemanticQuery.Resolve.Query

/-!
# Compiling plans

A plan is compiled against a ring: parsed, drafted, resolved and written as one statement. The
explanation shows the plan in words, the drafts and the statement.
-/

namespace SemanticQuery

open Sql

structure Compiled where
  plan : Plan
  /-- The drafts of the subplans, inner ones first, with the joins they need. -/
  drafts : List Draft
  select : Select
  statement : Statement
  dialect : Dialect

def Plan.compile (plan : Plan) (ring : Ring) (settings : Settings) : Except Error Compiled := do
  let drafts ← plan.drafts
  let resolution ← resolveDrafts ring settings drafts
  let dialect := settings.dialectOver ring.dialect
  .ok {
    plan := plan
    drafts := resolution.drafts
    select := resolution.select
    statement := resolution.select.emit dialect
    dialect := dialect }

def compile (raw : Entries String String) (ring : Ring) (settings : Settings) :
    Except Error Compiled := do
  (← Plan.parse raw).compile ring settings

def line (text : String) : String :=
  text ++ "\n"

/-- A line for a list that is left out when it is empty. -/
def listLine (label : String) (items : List String) : String :=
  if items.isEmpty then "" else line (label ++ String.intercalate ", " items)

def optionLine (label : String) : Option String → String
  | some text => line (label ++ text)
  | none => ""

namespace Plan

def explainSubplan (plan : Plan) (subplan : Subplan) : String :=
  line (subplan.id.text ++ " (return " ++ subplan.root.text ++ ")") ++
    String.join ((plan.stepsOf subplan).map fun reference =>
      match plan.step? reference with
      | some step =>
          line ("  " ++ reference.text ++ " " ++ step.text) ++
            line ("      -- " ++ plan.describeStep step)
      | none => "")

def explain (plan : Plan) : String :=
  String.join (plan.subplans.map plan.explainSubplan)

end Plan

def Draft.explain (draft : Draft) : String :=
  line draft.id.text ++
    line ("  sources:  " ++ String.intercalate ", " (draft.sources.map Source.text)) ++
    line ("  select:   " ++ String.intercalate ", " draft.select) ++
    listLine "  group by: " draft.groupBy ++
    optionLine "  filter:   " (draft.filter.map Handle.columnName) ++
    optionLine "  having:   " (draft.having.map Handle.columnName) ++
    listLine "  sort:     " (draft.sort.map fun key => key.column ++ " " ++ key.direction.name) ++
    optionLine "  limit:    " (draft.limit.map Nat.repr) ++
    listLine "  joins:    " draft.joins

def explainDrafts (drafts : List Draft) : String :=
  String.join (drafts.map Draft.explain)

def Sql.Statement.explain (statement : Statement) : String :=
  line statement.sql ++
    String.join (statement.params.zipIdx.map fun item =>
      line ("  $" ++ (item.2 + 1).repr ++ " = " ++ item.1.display))

namespace Compiled

def explain (compiled : Compiled) : String :=
  "-- plan\n" ++ compiled.plan.explain ++
    "\n-- subplans\n" ++ explainDrafts compiled.drafts ++
    "\n-- " ++ compiled.dialect.name ++ " statement\n" ++ compiled.statement.explain

/-- The draft of the query that returns the result. -/
def outermost (compiled : Compiled) : Except Error Draft :=
  match compiled.drafts.getLast? with
  | some draft => .ok draft
  | none => .error (.invariant "compiled plan has no subplans")

end Compiled

end SemanticQuery
