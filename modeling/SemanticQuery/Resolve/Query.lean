import SemanticQuery.Draft.Basic
import SemanticQuery.Resolve.Expression
import SemanticQuery.Resolve.Joins

/-!
# Drafts as queries

Each draft becomes a query over the table of its first entity, the tables joined to it and the
queries of the subplans it reads. Drafts are resolved in order, so that a query is there when it
is read; the last one is the query of the whole plan.
-/

namespace SemanticQuery

open Sql

/-- The queries compiled so far, with the columns they return. -/
structure Compilation where
  ring : Ring
  settings : Settings
  queries : Entries SubplanId Select := []
  exposed : Entries SubplanId (List String) := []

namespace Compilation

def dialect (compilation : Compilation) : Dialect :=
  compilation.settings.dialectOver compilation.ring.dialect

/-- What the handles of a draft are resolved in. -/
def scope (compilation : Compilation) (draft : Draft) : Scope where
  ring := compilation.ring
  settings := compilation.settings
  dialect := compilation.dialect
  exposed := compilation.exposed
  origins := draft.origins

def derived (compilation : Compilation) (id : SubplanId) : Except Error (TableRef Select) :=
  match compilation.queries.get? id with
  | some query => .ok (.derived query id.text)
  | none => .error (.invariant s!"{id.text} is read before it is compiled")

def laterPairs {α : Type} : List α → List (α × α)
  | [] => []
  | first :: rest => rest.map (fun second => (first, second)) ++ laterPairs rest

def joinsAmong (ring : Ring) (entities : List String) : Except Error (List String) := do
  let sets ← (laterPairs entities).mapM fun pair => ring.joinsBetween pair.1 pair.2
  .ok sets.flatten

def resolveOption (scope : Scope) : Option Handle → Except Error (Option Resolved)
  | none => .ok none
  | some handle => do .ok (some (← handle.resolve scope))

/-- The table that a draft reads first and the subplans it reads besides: the table of its first
entity, or else the query of its first subplan. -/
def origin (compilation : Compilation) (draft : Draft) :
    Except Error (TableRef Select × List SubplanId) :=
  match draft.entitySources, draft.subplanSources with
  | entity :: _, subplans => do
      let found ← compilation.ring.entity entity
      .ok (.table found.table, subplans)
  | [], id :: subplans => do .ok (← compilation.derived id, subplans)
  | [], [] => .error (.noSource draft.id.text)

def crossJoin (compilation : Compilation) (id : SubplanId) :
    Except Error (JoinClause Select) := do
  .ok { kind := .cross, table := ← compilation.derived id, condition := none, relation := none }

def columnExpr (draft : Draft) (columns : Entries String Expr) (name : String) :
    Except Error Expr :=
  match columns.get? name with
  | some expr => .ok expr
  | none => .error (.invariant s!"column {name} of {draft.id.text} was never resolved")

/-- The query of a draft, and the draft with the joins it needs. -/
def query (compilation : Compilation) (draft : Draft) : Except Error (Select × Draft) := do
  match draft.entitySources.find? fun name => !compilation.ring.isEntity name with
  | some unknown => .error (.unknownEntity unknown)
  | none =>
      let scope := compilation.scope draft
      let fields ← draft.fields.mapM fun field => do
        let resolved ← field.2.resolve scope
        pure (field.1, resolved)
      let filter ← resolveOption scope draft.filter
      let having ← resolveOption scope draft.having
      let between ← joinsAmong compilation.ring draft.entitySources
      let needed := NameSet.ofList (fields.flatMap (·.2.joins) ++
        (filter.toList ++ having.toList).flatMap (·.joins) ++ between)
      let (source, subplans) ← compilation.origin draft
      let attached ← (compilation.ring.attach draft.id needed [source.name]).1
      let crossed ← subplans.mapM compilation.crossJoin
      let column := columnExpr draft (fields.map fun field => (field.1, field.2.expr))
      let columns ← draft.select.mapM fun name => do pure (← column name, name)
      let groupBy ← draft.groupBy.mapM column
      let orderBy ← draft.sort.mapM fun key => do
        pure (⟨← column key.column, key.direction, compilation.settings.nullsLast⟩ : OrderTerm Expr)
      .ok ({ columns := columns
             source := source
             joins := attached ++ crossed
             filter := filter.map (·.expr)
             groupBy := groupBy
             having := having.map (·.expr)
             orderBy := orderBy
             limit := draft.limit }, { draft with joins := needed })

def add (state : Compilation × List Draft) (draft : Draft) :
    Except Error (Compilation × List Draft) := do
  let (query, resolved) ← state.1.query draft
  .ok ({ state.1 with
         queries := state.1.queries.put draft.id query
         exposed := state.1.exposed.put draft.id draft.select }, state.2 ++ [resolved])

end Compilation

structure Resolution where
  select : Select
  drafts : List Draft

/-- Resolves drafts against a ring, inner ones first. -/
def resolveDrafts (ring : Ring) (settings : Settings) (drafts : List Draft) :
    Except Error Resolution := do
  let (compilation, resolved) ← drafts.foldlM Compilation.add ({ ring, settings }, [])
  match compilation.queries.getLast? with
  | some (_, select) => .ok ⟨select, resolved⟩
  | none => .error (.invariant "plan compiled to no subplans")

end SemanticQuery
