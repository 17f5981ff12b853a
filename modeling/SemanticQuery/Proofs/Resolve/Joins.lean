import SemanticQuery.Proofs.Resolve.Attachment
import SemanticQuery.Proofs.Sql.Columns

/-!
# Attached joins

Joins are attached to a table one by one, each at a table that is there.  So every table is brought
in once, each condition reads only tables that are there when it is checked, and the tables in the
end are those of all the joins.
-/

namespace SemanticQuery

open Sql

/-- The condition of a join reads its two tables and no other. -/
theorem Join.IsProper.columns_condition {join : Join} (proper : join.IsProper) :
    join.condition.columns ≠ [] ∧
      ∀ column ∈ join.condition.columns, join.HasEnd column.table := by
  rw [join.columns_condition]
  constructor
  · obtain ⟨pair, rest, whole⟩ := List.exists_cons_of_ne_nil proper.paired
    simp [whole]
  · intro column member
    obtain ⟨pair, listed, inPair⟩ := List.mem_flatMap.mp member
    obtain ⟨source, target⟩ := proper.ends pair listed
    simp only [List.mem_cons, List.not_mem_nil, or_false] at inPair
    rcases inPair with rfl | rfl
    · exact .inl source
    · exact .inr target

def Sql.JoinClause.tablesFrom (start : String) (clauses : List (JoinClause Select)) : List String :=
  start :: clauses.map (·.table.name)

/-- A clause has a condition, and that reads only the given tables. -/
structure Sql.JoinClause.IsGrounded (tables : List String) (clause : JoinClause Select) : Prop where
  kind : clause.kind = .leftOuter
  condition : ∃ expr, clause.condition = some expr ∧ expr.columns ≠ [] ∧
    ∀ column ∈ expr.columns, column.table ∈ tables

theorem Ring.mem_of_join {ring : Ring} {name : String} {join : Join}
    (found : ring.join name = .ok join) : join ∈ ring.joins := by
  unfold Ring.join at found
  split at found
  · rename_i known isKnown
    cases found
    exact List.mem_of_find?_eq_some isKnown
  · cases found

namespace Attached

open JoinClause

/-- The state after some joins were followed from a table. -/
structure IsRooted (start : String) (followed : List Join) (attached : Attached) : Prop where
  tables : ∀ table, table ∈ attached.tables ↔ table ∈ tablesFrom start attached.clauses
  ends : ∀ table, table ∈ attached.tables ↔
    table = start ∨ ∃ join ∈ followed, join.HasEnd table
  distinct : (tablesFrom start attached.clauses).Nodup
  grounded : ∀ before clause after, attached.clauses = before ++ clause :: after →
    clause.IsGrounded (tablesFrom start (before ++ [clause]))

/-- Spreading from one table along joins that are all followed. -/
theorem IsSpread.isRooted {start : String} {joins : List Join} {attached : Attached}
    (spread : IsSpread joins [start] [] attached) (proper : ∀ join ∈ joins, join.IsProper) :
    IsRooted start joins attached where
  tables := spread.tables
  ends := by
    intro table
    constructor
    · intro member
      cases spread.reached table member with
      | start member => exact .inl (List.mem_singleton.mp member)
      | across listed _ _ isEnd => exact .inr ⟨_, listed, isEnd⟩
    · rintro (rfl | ⟨join, listed, isEnd⟩)
      · exact (spread.tables table).mpr List.mem_cons_self
      · exact ((spread.done join listed).resolve_left List.not_mem_nil) table isEnd
  distinct := spread.distinct (List.nodup_singleton start)
  grounded := by
    intro before clause after whole
    obtain ⟨join, listed, follows⟩ := spread.followed before clause after whole
    obtain ⟨reads, within⟩ := (proper join listed).columns_condition
    have there : ∀ column ∈ join.condition.columns,
        column.table ∈ tablesFrom start (before ++ [clause]) := by
      intro column member
      have known := follows.mem_of_hasEnd (within column member)
      simpa [tablesAfter, tablesFrom] using known
    cases follows with
    | forward => exact ⟨rfl, join.condition, rfl, reads, there⟩
    | backward => exact ⟨rfl, join.condition, rfl, reads, there⟩

end Attached

/-- Attaching named joins to a table follows all of them. -/
theorem Ring.isRooted_of_attach {ring : Ring} {subplan : SubplanId} {names : NameSet}
    {start : String} {clauses : List (JoinClause Select)}
    (proper : ∀ join ∈ ring.joins, join.IsProper)
    (attached : (ring.attach subplan names [start]).1 = .ok clauses) :
    ∃ joins tables, names.mapM ring.join = .ok joins ∧
      Attached.IsRooted start joins ⟨clauses, tables⟩ := by
  obtain ⟨joins, tables, found, spread⟩ := Ring.exists_isSpread_of_attach_eq_ok attached
  refine ⟨joins, tables, found, spread.isRooted ?_⟩
  intro join member
  obtain ⟨name, -, isJoin⟩ := exists_of_mem_mapM found member
  exact proper join (Ring.mem_of_join isJoin)

end SemanticQuery
