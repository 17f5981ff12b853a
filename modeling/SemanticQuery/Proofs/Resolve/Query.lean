import Mathlib.Logic.Relation
import SemanticQuery.Proofs.Resolve.Attachment
import SemanticQuery.Resolve.Query

/-!
# The queries of drafts

What the query of a draft consists of, and the queries within it.  Every query within the one of a
whole plan is the query of a draft, so what holds of each draft and its query holds throughout.
-/

namespace SemanticQuery

open Sql

/-- A query reads another one: as its source or in a join. -/
def Sql.Select.Reads (select inner : Select) : Prop :=
  (∃ label, select.source = .derived inner label) ∨
    ∃ clause ∈ select.joins, ∃ label, clause.table = .derived inner label

def Sql.Select.ReadsAs (select : Select) (label : String) (inner : Select) : Prop :=
  select.source = .derived inner label ∨ ∃ clause ∈ select.joins, clause.table = .derived inner label

theorem Sql.Select.reads_iff {select inner : Select} :
    select.Reads inner ↔ ∃ label, select.ReadsAs label inner := by
  constructor
  · rintro (⟨label, source⟩ | ⟨clause, member, label, table⟩)
    · exact ⟨label, .inl source⟩
    · exact ⟨label, .inr ⟨clause, member, table⟩⟩
  · rintro ⟨label, source | ⟨clause, member, table⟩⟩
    · exact .inl ⟨label, source⟩
    · exact .inr ⟨clause, member, label, table⟩

/-- A query occurs in the tree of another one. -/
def Sql.Select.IsPart (part select : Select) : Prop :=
  Relation.ReflTransGen Select.Reads select part

/-! ## Joined tables -/

namespace Attached

def AreTables (clauses : List (JoinClause Select)) : Prop :=
  ∀ clause ∈ clauses, ∃ name, clause.table = .table name

end Attached

theorem Ring.kind_of_attach {ring : Ring} {subplan : SubplanId} {names tables : NameSet}
    {clauses : List (JoinClause Select)}
    (attached : (ring.attach subplan names tables).1 = .ok clauses) :
    ∀ clause ∈ clauses, clause.kind = .leftOuter := by
  obtain ⟨joins, reached, -, spread⟩ := exists_isSpread_of_attach_eq_ok attached
  intro clause member
  obtain ⟨before, after, whole⟩ := List.append_of_mem member
  obtain ⟨join, -, follows⟩ := spread.followed before clause after whole
  cases follows <;> rfl

theorem Ring.areTables_of_attach {ring : Ring} {subplan : SubplanId} {names tables : NameSet}
    {clauses : List (JoinClause Select)}
    (attached : (ring.attach subplan names tables).1 = .ok clauses) :
    Attached.AreTables clauses := by
  obtain ⟨joins, reached, -, spread⟩ := exists_isSpread_of_attach_eq_ok attached
  intro clause member
  obtain ⟨before, after, whole⟩ := List.append_of_mem member
  obtain ⟨join, -, follows⟩ := spread.followed before clause after whole
  cases follows with
  | forward => exact ⟨_, rfl⟩
  | backward => exact ⟨_, rfl⟩

/-! ## One draft -/

namespace Compilation

variable {compilation : Compilation} {draft resolved : Draft} {select : Select}

structure Parts where
  fields : List (String × Resolved)
  filter : Option Resolved
  having : Option Resolved
  /-- The joins between the entities. -/
  between : List String
  /-- The subplans that are read besides the source. -/
  subplans : List SubplanId
  attached : List (JoinClause Select)
  crossed : List (JoinClause Select)

def Parts.columns (parts : Parts) : Entries String Expr :=
  parts.fields.map fun field => (field.1, field.2.expr)

def Parts.needed (parts : Parts) : NameSet :=
  NameSet.ofList (parts.fields.flatMap (·.2.joins) ++
    (parts.filter.toList ++ parts.having.toList).flatMap (·.joins) ++ parts.between)

structure Parts.Compose (parts : Parts) (compilation : Compilation) (draft : Draft)
    (select : Select) (resolved : Draft) : Prop where
  fields : (draft.fields.mapM fun field => do
    let resolved ← field.2.resolve (compilation.scope draft)
    pure (field.1, resolved)) = .ok parts.fields
  filter : resolveOption (compilation.scope draft) draft.filter = .ok parts.filter
  having : resolveOption (compilation.scope draft) draft.having = .ok parts.having
  between : joinsAmong compilation.ring draft.entitySources = .ok parts.between
  source : compilation.origin draft = .ok (select.source, parts.subplans)
  attached : (compilation.ring.attach draft.id parts.needed [select.source.name]).1 =
    .ok parts.attached
  crossed : parts.subplans.mapM compilation.crossJoin = .ok parts.crossed
  columns : (draft.select.mapM fun name => do
    pure (← columnExpr draft parts.columns name, name)) = .ok select.columns
  groupBy : draft.groupBy.mapM (columnExpr draft parts.columns) = .ok select.groupBy
  orderBy : (draft.sort.mapM fun key => do
    pure (⟨← columnExpr draft parts.columns key.column, key.direction,
      compilation.settings.nullsLast⟩ : OrderTerm Expr)) = .ok select.orderBy
  joins : select.joins = parts.attached ++ parts.crossed
  filter_eq : select.filter = parts.filter.map (·.expr)
  having_eq : select.having = parts.having.map (·.expr)
  resolved_eq : resolved = { draft with joins := parts.needed }

theorem exists_parts_of_query (compiled : compilation.query draft = .ok (select, resolved)) :
    ∃ parts : Parts, parts.Compose compilation draft select resolved := by
  unfold query at compiled
  split at compiled
  · cases compiled
  · obtain ⟨fields, fieldsOk, compiled⟩ := bind_eq_ok_iff.mp compiled
    obtain ⟨filter, filterOk, compiled⟩ := bind_eq_ok_iff.mp compiled
    obtain ⟨having, havingOk, compiled⟩ := bind_eq_ok_iff.mp compiled
    obtain ⟨between, betweenOk, compiled⟩ := bind_eq_ok_iff.mp compiled
    obtain ⟨⟨source, subplans⟩, sourceOk, compiled⟩ := bind_eq_ok_iff.mp compiled
    obtain ⟨attached, attachedOk, compiled⟩ := bind_eq_ok_iff.mp compiled
    obtain ⟨crossed, crossedOk, compiled⟩ := bind_eq_ok_iff.mp compiled
    obtain ⟨columns, columnsOk, compiled⟩ := bind_eq_ok_iff.mp compiled
    obtain ⟨groupBy, groupByOk, compiled⟩ := bind_eq_ok_iff.mp compiled
    obtain ⟨orderBy, orderByOk, compiled⟩ := bind_eq_ok_iff.mp compiled
    cases compiled
    exact ⟨⟨fields, filter, having, between, subplans, attached, crossed⟩, fieldsOk, filterOk,
      havingOk, betweenOk, sourceOk, attachedOk, crossedOk, columnsOk, groupByOk, orderByOk, rfl,
      rfl, rfl, rfl⟩

structure IsQuery (compilation : Compilation) (draft : Draft) (select : Select)
    (resolved : Draft) : Prop where
  filter : ∃ filter, resolveOption (compilation.scope draft) draft.filter = .ok filter ∧
    select.filter = filter.map (·.expr)
  having : ∃ having, resolveOption (compilation.scope draft) draft.having = .ok having ∧
    select.having = having.map (·.expr)
  tables : ∃ subplans attached crossed,
    compilation.origin draft = .ok (select.source, subplans) ∧
    (compilation.ring.attach draft.id resolved.joins [select.source.name]).1 = .ok attached ∧
    subplans.mapM compilation.crossJoin = .ok crossed ∧ select.joins = attached ++ crossed
  resolved_eq : resolved = { draft with joins := resolved.joins }

theorem isQuery_of_query (compiled : compilation.query draft = .ok (select, resolved)) :
    IsQuery compilation draft select resolved := by
  obtain ⟨parts, composed⟩ := exists_parts_of_query compiled
  refine ⟨⟨parts.filter, composed.filter, composed.filter_eq⟩,
    ⟨parts.having, composed.having, composed.having_eq⟩,
    ⟨parts.subplans, parts.attached, parts.crossed, composed.source, ?_, composed.crossed,
      composed.joins⟩, ?_⟩
  · rw [composed.resolved_eq]
    exact composed.attached
  · rw [composed.resolved_eq]

theorem derived_cases {id : SubplanId} {table : TableRef Select}
    (found : compilation.derived id = .ok table) :
    ∃ query, compilation.queries.get? id = some query ∧ table = .derived query id.text := by
  unfold derived at found
  split at found
  · rename_i query isQuery
    cases found
    exact ⟨query, isQuery, rfl⟩
  · cases found

theorem derived_eq_ok_iff {id : SubplanId} {inner : Select} {label : String} :
    compilation.derived id = .ok (.derived inner label) ↔
      label = id.text ∧ compilation.queries.get? id = some inner := by
  constructor
  · intro found
    obtain ⟨query, isQuery, same⟩ := derived_cases found
    cases same
    exact ⟨rfl, isQuery⟩
  · rintro ⟨rfl, found⟩
    rw [derived, found]

/-- The queries that a draft reads are those of its subplans: one may be the source, all others are
left. -/
theorem derived_iff_of_origin {source : TableRef Select} {subplans : List SubplanId}
    (found : compilation.origin draft = .ok (source, subplans)) {inner : Select} {label : String} :
    source = .derived inner label ∨
        (∃ id ∈ subplans, compilation.derived id = .ok (.derived inner label)) ↔
      ∃ id ∈ draft.subplanSources, compilation.derived id = .ok (.derived inner label) := by
  unfold origin at found
  split at found
  · obtain ⟨entity, -, same⟩ := bind_eq_ok_iff.mp found
    cases same
    simp
  · rename_i id rest _ sources
    obtain ⟨table, isDerived, same⟩ := bind_eq_ok_iff.mp found
    cases same
    simp [sources, isDerived]
  · cases found

theorem derived_iff_of_crossed {subplans : List SubplanId} {crossed : List (JoinClause Select)}
    (run : subplans.mapM compilation.crossJoin = .ok crossed) {table : TableRef Select} :
    (∃ clause ∈ crossed, clause.table = table) ↔
      ∃ id ∈ subplans, compilation.derived id = .ok table := by
  constructor
  · rintro ⟨clause, member, rfl⟩
    obtain ⟨id, listed, clauseOk⟩ := exists_of_mem_mapM run member
    obtain ⟨table, found, same⟩ := bind_eq_ok_iff.mp clauseOk
    cases same
    exact ⟨id, listed, found⟩
  · rintro ⟨id, listed, found⟩
    obtain ⟨clause, member, clauseOk⟩ := exists_result_of_mem_mapM run listed
    rw [crossJoin, found] at clauseOk
    cases clauseOk
    exact ⟨_, member, rfl⟩

/-- The query of a draft reads the queries of the draft's subplans, each under the name of its subplan. -/
theorem IsQuery.readsAs_iff (isQuery : IsQuery compilation draft select resolved) {label : String}
    {inner : Select} : select.ReadsAs label inner ↔
      ∃ id ∈ draft.subplanSources, label = id.text ∧ compilation.queries.get? id = some inner := by
  obtain ⟨subplans, attached, crossed, originOk, attachedOk, crossedOk, joins⟩ := isQuery.tables
  have joined : (∃ clause ∈ select.joins, clause.table = .derived inner label) ↔
      ∃ clause ∈ crossed, clause.table = .derived inner label := by
    refine exists_congr fun clause => and_congr_left fun table => ?_
    rw [joins, List.mem_append, or_iff_right]
    intro attachedMember
    obtain ⟨name, isTable⟩ := Ring.areTables_of_attach attachedOk clause attachedMember
    rw [isTable] at table
    cases table
  rw [Select.ReadsAs, joined, derived_iff_of_crossed crossedOk, derived_iff_of_origin originOk]
  simp only [derived_eq_ok_iff]

/-- What the query of a draft reads was compiled before. -/
theorem IsQuery.mem_queries_of_reads (isQuery : IsQuery compilation draft select resolved)
    {inner : Select} (reads : select.Reads inner) : ∃ id, (id, inner) ∈ compilation.queries := by
  obtain ⟨label, readsAs⟩ := Select.reads_iff.mp reads
  obtain ⟨id, -, -, found⟩ := isQuery.readsAs_iff.mp readsAs
  exact ⟨id, Entries.mem_of_get? found⟩

/-! ## All drafts -/

/-- Among drafts of distinct subplans each has another one than those before it. -/
theorem not_mem_of_nodup {drafts before later : List Draft} (distinct : (drafts.map (·.id)).Nodup)
    (whole : drafts = before ++ draft :: later) : draft.id ∉ before.map (·.id) := by
  rw [whole, List.map_append, List.nodup_append'] at distinct
  exact fun member => distinct.2.2 member (List.mem_map_of_mem List.mem_cons_self)

/-- Compiling one more draft adds its query behind the others, and the draft with its joins. -/
theorem exists_query_of_add {state after : Compilation × List Draft}
    (fresh : draft.id ∉ state.1.queries.map (·.1)) (added : add state draft = .ok after) :
    ∃ select resolved, state.1.query draft = .ok (select, resolved) ∧ resolved.id = draft.id ∧
      after = ({ state.1 with
        queries := state.1.queries ++ [(draft.id, select)]
        exposed := state.1.exposed.put draft.id draft.select }, state.2 ++ [resolved]) := by
  obtain ⟨⟨select, resolved⟩, compiled, same⟩ := bind_eq_ok_iff.mp added
  cases same
  refine ⟨select, resolved, compiled, ?_, ?_⟩
  · rw [(isQuery_of_query compiled).resolved_eq]
  · rw [Entries.put_of_not_mem fresh]

/-- Each query that was compiled, and each within one of them, belongs to a draft in the way that is
given. -/
def AreQueriesOf (property : Draft → Select → Prop) (state : Compilation × List Draft) : Prop :=
  ∀ entry ∈ state.1.queries, ∀ part, part.IsPart entry.2 → ∃ draft ∈ state.2, property draft part

/-- A compiled query adds itself; all that it reads was there. -/
theorem areQueriesOf_add {property : Draft → Select → Prop} {state after : Compilation × List Draft}
    (own : ∀ select resolved, state.1.query draft = .ok (select, resolved) →
      property resolved select)
    (known : AreQueriesOf property state) (added : add state draft = .ok after) :
    AreQueriesOf property after := by
  obtain ⟨⟨query, resolved⟩, compiled, same⟩ := bind_eq_ok_iff.mp added
  cases same
  have isQuery := isQuery_of_query compiled
  intro entry entryMember part isPart
  rcases Entries.mem_of_mem_put entryMember with rfl | earlier
  · rcases Relation.ReflTransGen.cases_head isPart with rfl | ⟨inner, reads, deeper⟩
    · exact ⟨resolved, by simp, own _ _ compiled⟩
    · obtain ⟨id, innerMember⟩ := isQuery.mem_queries_of_reads reads
      obtain ⟨owner, ownerMember, holds⟩ := known _ innerMember part deeper
      exact ⟨owner, List.mem_append_left _ ownerMember, holds⟩
  · obtain ⟨owner, ownerMember, holds⟩ := known entry earlier part isPart
    exact ⟨owner, List.mem_append_left _ ownerMember, holds⟩

theorem ring_of_add {state after : Compilation × List Draft} (added : add state draft = .ok after) :
    after.1.ring = state.1.ring := by
  obtain ⟨⟨query, resolved⟩, -, same⟩ := bind_eq_ok_iff.mp added
  cases same
  rfl

end Compilation

theorem exists_run_of_resolveDrafts {ring : Ring} {settings : Settings} {drafts : List Draft}
    {resolution : Resolution} (resolves : resolveDrafts ring settings drafts = .ok resolution) :
    ∃ compilation : Compilation,
      drafts.foldlM Compilation.add ({ ring, settings }, []) = .ok (compilation, resolution.drafts) ∧
      compilation.queries.getLast?.map (·.2) = some resolution.select := by
  obtain ⟨⟨compilation, resolved⟩, run, found⟩ := bind_eq_ok_iff.mp resolves
  dsimp only at found
  split at found
  · rename_i id select last
    cases found
    exact ⟨compilation, run, by rw [last]; rfl⟩
  · cases found

/-- What holds of each draft and its query over a ring holds of every query within that of a whole
plan. -/
theorem exists_draft_of_isPart_of_ring {property : Draft → Select → Prop} {ring : Ring}
    {settings : Settings} {drafts : List Draft} {resolution : Resolution}
    (each : ∀ draft ∈ drafts, ∀ (compilation : Compilation) (select : Select) (resolved : Draft),
      compilation.ring = ring → compilation.query draft = .ok (select, resolved) →
      property resolved select)
    (resolves : resolveDrafts ring settings drafts = .ok resolution) {part : Select}
    (isPart : part.IsPart resolution.select) :
    ∃ draft ∈ resolution.drafts, property draft part := by
  obtain ⟨compilation, run, last⟩ := exists_run_of_resolveDrafts resolves
  have known : compilation.ring = ring ∧
      Compilation.AreQueriesOf property (compilation, resolution.drafts) := by
    refine foldlM_keeps_of_mem
      (fun state => state.1.ring = ring ∧ Compilation.AreQueriesOf property state) ?_ ?_ run
    · rintro state draft member after ⟨ring, earlier⟩ added
      refine ⟨(Compilation.ring_of_add added).trans ring, ?_⟩
      exact Compilation.areQueriesOf_add
        (fun select resolved => each draft member state.1 select resolved ring) earlier added
    · refine ⟨rfl, ?_⟩
      intro entry none
      cases none
  obtain ⟨entry, isLast, isSelect⟩ := Option.map_eq_some_iff.mp last
  exact known.2 entry (List.mem_of_getLast? isLast) part (isSelect ▸ isPart)

/-- What holds of each draft and its query holds of every query within that of a whole plan. -/
theorem exists_draft_of_isPart {property : Draft → Select → Prop} {ring : Ring}
    {settings : Settings} {drafts : List Draft} {resolution : Resolution}
    (each : ∀ draft ∈ drafts, ∀ compilation select resolved,
      Compilation.IsQuery compilation draft select resolved → property resolved select)
    (resolves : resolveDrafts ring settings drafts = .ok resolution) {part : Select}
    (isPart : part.IsPart resolution.select) :
    ∃ draft ∈ resolution.drafts, property draft part := by
  refine exists_draft_of_isPart_of_ring ?_ resolves isPart
  intro draft member compilation select resolved _ compiled
  exact each draft member compilation select resolved (Compilation.isQuery_of_query compiled)

end SemanticQuery
