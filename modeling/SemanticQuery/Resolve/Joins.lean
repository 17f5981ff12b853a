import SemanticQuery.Plan.Subplan
import SemanticQuery.Ring.Basic
import SemanticQuery.Sql.Expr

/-!
# Attaching joins

The joins that a query needs are attached to the tables it has, in the order of their names, each
as soon as one of its tables is there. A join whose two tables are there adds nothing.
-/

namespace SemanticQuery

open Sql

def Join.condition (join : Join) : Expr :=
  match join.path.map fun pair =>
    Expr.binary .equal (.column pair.source.table pair.source.column)
      (.column pair.target.table pair.target.column) with
  | [equality] => equality
  | equalities => .logical .and equalities

def Join.touches (tables : NameSet) (join : Join) : Bool :=
  tables.contains join.sourceTable || tables.contains join.targetTable

/-- A query's tables and the join clauses that brought them in. -/
structure Attached where
  clauses : List (JoinClause Select)
  tables : NameSet

namespace Attached

def add (attached : Attached) (join : Join) (table label : String) : Attached where
  clauses := attached.clauses ++ [{
    kind := .leftOuter
    table := .table table
    condition := some join.condition
    relation := some label }]
  tables := attached.tables.insert table

/-- Follows a join from the table that is there to the one that is not. -/
def follow (attached : Attached) (join : Join) : Attached :=
  match attached.tables.contains join.sourceTable, attached.tables.contains join.targetTable with
  | true, false => attached.add join join.targetTable join.name
  | false, true => attached.add join join.sourceTable join.reverseName
  | _, _ => attached

def takeFirst (test : Join → Bool) : List Join → Option (Join × List Join)
  | [] => none
  | join :: rest =>
      if test join then some (join, rest)
      else (takeFirst test rest).map fun found => (found.1, join :: found.2)

/-- Follows joins until none touches a table; the others are left. The first argument bounds the
number of joins followed. -/
def followAll : Nat → List Join → Attached → Attached × List Join
  | 0, pending, attached => (attached, pending)
  | bound + 1, pending, attached =>
      match takeFirst (Join.touches attached.tables) pending with
      | none => (attached, pending)
      | some (join, rest) => followAll bound rest (attached.follow join)

end Attached

namespace Ring

/-- Attaches the named joins to tables. The answer is the clauses, or a failure, and the tables
that are there afterwards. -/
def attach (ring : Ring) (subplan : SubplanId) (names tables : NameSet) :
    Except Error (List (JoinClause Select)) × NameSet :=
  match names.mapM ring.join with
  | .error error => (.error error, tables)
  | .ok pending =>
      match Attached.followAll pending.length pending ⟨[], tables⟩ with
      | (attached, []) => (.ok attached.clauses, attached.tables)
      | (attached, join :: _) =>
          (.error (.strandedJoin subplan.text join.name attached.tables), attached.tables)

end Ring

end SemanticQuery
