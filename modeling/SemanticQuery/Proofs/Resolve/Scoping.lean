import SemanticQuery.Compiled
import SemanticQuery.Proofs.Handle.ColumnName
import SemanticQuery.Proofs.Resolve.Handles
import SemanticQuery.Proofs.Resolve.Joins
import SemanticQuery.Ring.Load

/-!
# The scoping of queries

In the query of every subplan, a column of another subplan is found in exactly one table, the query
of that subplan; joins bring in each table once, and their conditions read only tables that are
there.
-/

namespace SemanticQuery

open Sql

/-! ## Tables of a query -/

/-- The query that a table is, if it has the given label. -/
def Sql.TableRef.labelled? (label : String) : TableRef Select → Option Select
  | .derived query other => if other = label then some query else none
  | .table _ => none

def Sql.Select.joinsOf (select : Select) (kind : JoinKind) : List (JoinClause Select) :=
  select.joins.filter fun clause => clause.kind = kind

/-- The queries under a label among the source and the cross joins of a query. -/
def Sql.Select.labelled (select : Select) (label : String) : List Select :=
  (select.source :: (select.joinsOf .cross).map (·.table)).filterMap (·.labelled? label)

/-- All columns that the query of a draft reads are in scope where they are read. -/
structure IsScoped (queries : Entries SubplanId Select) (draft : Draft) (select : Select) :
    Prop where
  /-- A column of another subplan is one of the query of that subplan, which is there once. -/
  columns : ∀ handle ∈ draft.handles, ∀ subplan name origin,
    (Handle.column subplan name origin).Occurs handle →
    ∃ query, select.labelled subplan.text = [query] ∧ (subplan, query) ∈ queries ∧
      name ∈ query.columns.map (·.2)
  order : select.joins = select.joinsOf .leftOuter ++ select.joinsOf .cross
  /-- No table is joined twice, and the source is not joined. -/
  distinct : (JoinClause.tablesFrom select.source.name (select.joinsOf .leftOuter)).Nodup
  /-- The condition of a join reads the tables before it and its own. -/
  grounded : ∀ before clause after, select.joinsOf .leftOuter = before ++ clause :: after →
    clause.IsGrounded (JoinClause.tablesFrom select.source.name (before ++ [clause]))

theorem IsScoped.mono {queries more : Entries SubplanId Select} {draft : Draft} {select : Select}
    (isScoped : IsScoped queries draft select) (grown : queries ⊆ more) :
    IsScoped more draft select := by
  refine ⟨?_, isScoped.order, isScoped.distinct, isScoped.grounded⟩
  intro handle member subplan name origin occurs
  obtain ⟨query, labelled, known, listed⟩ :=
    isScoped.columns handle member subplan name origin occurs
  exact ⟨query, labelled, grown known, listed⟩

/-! ## One draft -/

theorem Draft.IsSourced.nodup_subplanSources {draft : Draft} (sourced : draft.IsSourced) :
    draft.subplanSources.Nodup := by
  refine sourced.distinct.filterMap ?_
  intro first second id isFirst isSecond
  cases first <;> cases second <;> simp_all [Source.subplan?]

namespace Compilation

variable {compilation : Compilation} {draft resolved : Draft} {select : Select}

def queryUnder? (compilation : Compilation) (label : String) (id : SubplanId) : Option Select :=
  if id.text = label then compilation.queries.get? id else none

theorem labelled?_of_derived {id : SubplanId} {table : TableRef Select}
    (found : compilation.derived id = .ok table) (label : String) :
    table.labelled? label = compilation.queryUnder? label id := by
  obtain ⟨query, isQuery, rfl⟩ := derived_cases found
  simp only [TableRef.labelled?, queryUnder?, isQuery]

theorem labelled?_of_crossJoin {id : SubplanId} {clause : JoinClause Select}
    (crossed : compilation.crossJoin id = .ok clause) (label : String) :
    clause.kind = .cross ∧ clause.table.labelled? label = compilation.queryUnder? label id := by
  obtain ⟨table, found, same⟩ := bind_eq_ok_iff.mp crossed
  cases same
  exact ⟨rfl, labelled?_of_derived found label⟩

/-- The cross joins of subplans, by label. -/
theorem labelled_of_crossed {subplans : List SubplanId} {crossed : List (JoinClause Select)}
    (run : subplans.mapM compilation.crossJoin = .ok crossed) (label : String) :
    (crossed.map (·.table)).filterMap (·.labelled? label) =
      subplans.filterMap (compilation.queryUnder? label) := by
  rw [mapM_eq_ok_iff] at run
  induction run with
  | nil => rfl
  | cons clauseOk _ ih =>
      rw [List.map_cons, List.filterMap_cons, List.filterMap_cons, ih,
        (labelled?_of_crossJoin clauseOk label).2]

/-- The tables of the query of a draft: those of the subplans it reads, and those that joins attach
to the source. -/
structure IsJoined (compilation : Compilation) (draft : Draft) (select : Select)
    (resolved : Draft) : Prop where
  labelled : ∀ label,
    select.labelled label = draft.subplanSources.filterMap (compilation.queryUnder? label)
  order : select.joins = select.joinsOf .leftOuter ++ select.joinsOf .cross
  areTables : Attached.AreTables (select.joinsOf .leftOuter)
  rooted : ∃ joins tables, resolved.joins.mapM compilation.ring.join = .ok joins ∧
    Attached.IsRooted select.source.name joins ⟨select.joinsOf .leftOuter, tables⟩

/-- The source of a draft is the query of a subplan only if no entity is read. -/
theorem labelled_of_origin {source : TableRef Select} {subplans : List SubplanId}
    (found : compilation.origin draft = .ok (source, subplans)) (label : String) :
    (source.labelled? label).toList ++ subplans.filterMap (compilation.queryUnder? label) =
      draft.subplanSources.filterMap (compilation.queryUnder? label) := by
  unfold origin at found
  split at found
  · obtain ⟨entity, -, same⟩ := bind_eq_ok_iff.mp found
    cases same
    rfl
  · rename_i id rest _ sources
    obtain ⟨table, isDerived, same⟩ := bind_eq_ok_iff.mp found
    cases same
    rw [sources, labelled?_of_derived isDerived, List.filterMap_cons]
    cases compilation.queryUnder? label id <;> rfl
  · cases found

/-- The outer joins of a query are the clauses that were attached, and its cross joins are the subplans
that are read besides. -/
theorem IsQuery.exists_joins (isQuery : IsQuery compilation draft select resolved) :
    ∃ subplans, compilation.origin draft = .ok (select.source, subplans) ∧
      (compilation.ring.attach draft.id resolved.joins [select.source.name]).1 =
        .ok (select.joinsOf .leftOuter) ∧
      subplans.mapM compilation.crossJoin = .ok (select.joinsOf .cross) ∧
      select.joins = select.joinsOf .leftOuter ++ select.joinsOf .cross := by
  obtain ⟨subplans, attached, crossed, originOk, attachedOk, crossedOk, joins⟩ := isQuery.tables
  have outer : ∀ clause ∈ attached, clause.kind = .leftOuter :=
    Ring.kind_of_attach attachedOk
  have cross : ∀ clause ∈ crossed, clause.kind = .cross := by
    intro clause member
    obtain ⟨id, -, clauseOk⟩ := exists_of_mem_mapM crossedOk member
    exact (labelled?_of_crossJoin clauseOk "").1
  have isAttached : select.joinsOf .leftOuter = attached := by
    rw [Select.joinsOf, joins, List.filter_append, List.filter_eq_self.mpr, List.filter_eq_nil_iff.mpr,
      List.append_nil]
    · intro clause member
      simp [cross clause member]
    · intro clause member
      simp [outer clause member]
  have isCrossed : select.joinsOf .cross = crossed := by
    rw [Select.joinsOf, joins, List.filter_append, List.filter_eq_nil_iff.mpr, List.filter_eq_self.mpr,
      List.nil_append]
    · intro clause member
      simp [cross clause member]
    · intro clause member
      simp [outer clause member]
  rw [isAttached, isCrossed]
  exact ⟨subplans, originOk, attachedOk, crossedOk, joins⟩

theorem IsQuery.isJoined (isQuery : IsQuery compilation draft select resolved)
    (proper : ∀ join ∈ compilation.ring.joins, join.IsProper) :
    IsJoined compilation draft select resolved := by
  obtain ⟨subplans, originOk, attachedOk, crossedOk, joins⟩ := isQuery.exists_joins
  obtain ⟨named, tables, namedOk, rooted⟩ := Ring.isRooted_of_attach proper attachedOk
  refine ⟨?_, joins, Ring.areTables_of_attach attachedOk, named, tables, namedOk, rooted⟩
  intro label
  rw [← labelled_of_origin originOk, Select.labelled, ← labelled_of_crossed crossedOk,
    List.filterMap_cons]
  cases select.source.labelled? label <;> rfl

def Exposes (compilation : Compilation) : Prop :=
  ∀ id columns, compilation.exposed.get? id = some columns →
    ∃ query, compilation.queries.get? id = some query ∧ query.columns.map (·.2) = columns

/-- Among distinct subplans only one has a given name. -/
theorem filterMap_queryUnder? {ids : List SubplanId} (distinct : ids.Nodup) {id : SubplanId}
    (member : id ∈ ids) :
    ids.filterMap (compilation.queryUnder? id.text) = (compilation.queries.get? id).toList := by
  have others {rest : List SubplanId} (absent : id ∉ rest) :
      rest.filterMap (compilation.queryUnder? id.text) = [] := by
    refine List.filterMap_eq_nil_iff.mpr fun other listed => if_neg ?_
    intro same
    exact absent (SubplanId.text_injective same ▸ listed)
  induction ids with
  | nil => cases member
  | cons first rest ih =>
      obtain ⟨absent, later⟩ := List.nodup_cons.mp distinct
      rw [List.filterMap_cons]
      rcases List.mem_cons.mp member with rfl | listed
      · rw [others absent, queryUnder?, if_pos rfl]
        cases compilation.queries.get? id <;> rfl
      · have differs : first.text ≠ id.text := by
          intro same
          exact absent (SubplanId.text_injective same ▸ listed)
        rw [queryUnder?, if_neg differs]
        exact ih later listed

theorem isScoped_of_query (proper : ∀ join ∈ compilation.ring.joins, join.IsProper)
    (sourced : draft.IsSourced) (exposes : compilation.Exposes)
    (compiled : compilation.query draft = .ok (select, resolved)) :
    IsScoped compilation.queries resolved select := by
  have isQuery := isQuery_of_query compiled
  have isJoined := isQuery.isJoined proper
  obtain ⟨joins, tables, -, rooted⟩ := isJoined.rooted
  refine ⟨?_, isJoined.order, rooted.distinct, rooted.grounded⟩
  rw [isQuery.resolved_eq]
  intro handle member subplan name origin occurs
  obtain ⟨results, resolves, -⟩ := (evaluates_of_query compiled).results
  obtain ⟨result, -, resultOk⟩ := exists_result_of_mem_mapM resolves member
  obtain ⟨column, columnOk, -⟩ := Handle.exists_resolve_of_occurs occurs resultOk
  rw [Handle.resolve] at columnOk
  obtain ⟨-, columns, exposed, listed⟩ := Scope.exposed_of_column columnOk
  obtain ⟨query, isKnown, rfl⟩ := exposes subplan columns exposed
  have isSource : subplan ∈ draft.subplanSources := by
    exact Draft.mem_subplanSources.mpr
      (sourced.handles handle member _ occurs (.subplan subplan) rfl)
  refine ⟨query, ?_, Entries.mem_of_get? isKnown, listed⟩
  rw [isJoined.labelled, filterMap_queryUnder? sourced.nodup_subplanSources isSource, isKnown]
  rfl

/-! ## All drafts -/

/-- The state after some drafts were compiled: each has its query, and that is scoped. -/
structure AreScoped (ring : Ring) (drafts : List Draft) (state : Compilation × List Draft) :
    Prop where
  ring : state.1.ring = ring
  exposes : state.1.Exposes
  ids : state.2.map (·.id) = drafts.map (·.id)
  queries : List.Forall₂
    (fun draft entry => entry.1 = draft.id ∧ IsScoped state.1.queries draft entry.2)
    state.2 state.1.queries

theorem AreScoped.keys {ring : Ring} {drafts : List Draft} {state : Compilation × List Draft}
    (areScoped : AreScoped ring drafts state) :
    state.1.queries.map (·.1) = drafts.map (·.id) := by
  rw [← areScoped.ids]
  exact map_eq_map_of_forall₂ (fun _ _ entry => entry.1) areScoped.queries

theorem areScoped_add {ring : Ring} {before : List Draft} {state after : Compilation × List Draft}
    (proper : ∀ join ∈ ring.joins, join.IsProper) (sourced : draft.IsSourced)
    (fresh : draft.id ∉ before.map (·.id)) (areScoped : AreScoped ring before state)
    (added : add state draft = .ok after) : AreScoped ring (before ++ [draft]) after := by
  have absent : draft.id ∉ state.1.queries.map (·.1) := areScoped.keys ▸ fresh
  obtain ⟨query, resolved, compiled, id, rfl⟩ := exists_query_of_add absent added
  have evaluates := evaluates_of_query compiled
  have isScoped : IsScoped state.1.queries resolved query :=
    isScoped_of_query (areScoped.ring ▸ proper) sourced areScoped.exposes compiled
  refine ⟨areScoped.ring, ?_, ?_, ?_⟩
  · intro id columns exposed
    dsimp only at exposed ⊢
    rw [← Entries.put_of_not_mem absent]
    rw [Entries.get?_put] at exposed ⊢
    split at exposed
    · rename_i same
      cases exposed
      exact ⟨query, by rw [if_pos same], evaluates.names⟩
    · rename_i other
      rw [if_neg other]
      exact areScoped.exposes id columns exposed
  · rw [List.map_append, List.map_append, areScoped.ids, List.map_singleton, List.map_singleton, id]
  · refine List.rel_append (areScoped.queries.imp ?_) ?_
    · rintro draft entry ⟨id, isScoped⟩
      exact ⟨id, isScoped.mono (List.subset_append_left _ _)⟩
    · exact .cons ⟨id.symm, isScoped.mono (List.subset_append_left _ _)⟩ .nil

theorem areScoped_start (ring : Ring) (settings : Settings) :
    AreScoped ring [] ({ ring, settings }, []) where
  ring := rfl
  exposes := nofun
  ids := rfl
  queries := .nil

end Compilation

/-- Every subplan has its query, in order, and each query is scoped.  The last one is that of the
whole plan. -/
structure Compiled.HasScopedQueries (compiled : Compiled) (ring : Ring) (settings : Settings) :
    Prop where
  ids : compiled.drafts.map (·.id) = compiled.plan.subplans.map (·.id)
  queries : ∃ drafts compilation, compiled.plan.drafts = .ok drafts ∧
    drafts.foldlM Compilation.add ({ ring, settings }, []) = .ok (compilation, compiled.drafts) ∧
    compilation.queries.getLast?.map (·.2) = some compiled.select ∧
    List.Forall₂
      (fun draft entry => entry.1 = draft.id ∧ IsScoped compilation.queries draft entry.2)
      compiled.drafts compilation.queries

/-- In every query of a compiled plan, all that is read from other subplans and all that the
conditions of joins read is in scope, and no table is joined twice. -/
theorem compile_hasScopedQueries {document : Document} {ring : Ring} {raw : Entries String String}
    {settings : Settings} {compiled : Compiled} (loads : Ring.ofDocument document = .ok ring)
    (compiles : compile raw ring settings = .ok compiled) :
    compiled.HasScopedQueries ring settings := by
  obtain ⟨plan, parsed, compiles⟩ := bind_eq_ok_iff.mp compiles
  obtain ⟨drafts, drafted, compiles⟩ := bind_eq_ok_iff.mp compiles
  obtain ⟨resolution, resolves, same⟩ := bind_eq_ok_iff.mp compiles
  cases same
  obtain ⟨compilation, run, last⟩ := exists_run_of_resolveDrafts resolves
  have divided := Plan.isDivided_of_parse parsed
  obtain ⟨ids, sourced⟩ := divided.isSourced_of_drafts drafted
  have distinct := divided.nodup_drafts drafted
  have areScoped : Compilation.AreScoped ring drafts (compilation, resolution.drafts) := by
    refine foldlM_keeps_prefix (Compilation.AreScoped ring) ?_
      (Compilation.areScoped_start ring settings) run
    intro before draft later state after whole areScoped added
    refine Compilation.areScoped_add (Ring.isProper_of_ofDocument loads) (sourced draft ?_)
      (Compilation.not_mem_of_nodup distinct whole) areScoped added
    rw [whole]
    exact List.mem_append_right _ List.mem_cons_self
  exact ⟨areScoped.ids.trans ids, drafts, compilation, drafted, run, last, areScoped.queries⟩

/-- A document of employees and departments.  The number of an employee's badge is in a table of its
own, which the given join is to lead to. -/
def staffDocument (badgeJoin : String) : Document where
  name := "staff"
  source := {
    kind := "sqlite"
    connection := none
    tables := ["employee", "department", "badge"]
    joins := [
      { name := "employee_department", source := "employee", target := "department",
        path := [["employee.department_id", "department.id"]], bidirectional := false },
      { name := "employee_badge", source := "employee", target := "badge",
        path := [["employee.id", "badge.employee_id"], ["employee.site", "badge.site"]],
        bidirectional := false }] }
  entities := [
    { name := "Employee"
      names := ["employee", "employees"]
      table := "employee"
      identifiers := ["id"]
      attributes := [
        ("salary", column "employee" "salary" []),
        ("badge", column "badge" "number" [badgeJoin])] },
    { name := "Department"
      names := ["department", "departments"]
      table := "department"
      identifiers := ["id"]
      attributes := [("name", column "department" "name" [])] }]
  relationships := [
    { name := "works_in", source := "Employee", target := "Department",
      joins := ["employee_department"], relation := none, bidirectional := false, derived := false,
      parts := [] }]
where
  column (table name : String) (joins : List String) : Document.AttributeEntry :=
    { names := [name, name], types := [], units := none,
      source := { table, columns := [name], joins },
      nullHandling := none, nullValue := none, rounding := none }

def aboveAverage : Entries String String :=
  [("|1|", "(retrieve_entity Employee)"), ("|2|", "(retrieve_attribute |1| salary)"),
    ("|3|", "(average |2|)"), ("|4|", "(collect |3|)"), ("|5|", "(return |4|)"),
    ("|6|", "(retrieve_entity Employee)"), ("|7|", "(retrieve_attribute |6| salary)"),
    ("|8|", "(retrieve_attribute |5| |3|)"), ("|9|", "(greaterthan |7| |8|)"),
    ("|10|", "(retrieve_attribute |6| badge)"), ("|11|", "(retrieve_entity Department)"),
    ("|12|", "(retrieve_attribute |11| name)"), ("|13|", "(collect |10| |12|)"),
    ("|14|", "(return |13| |9|)")]

/-- Two tables are joined here, one of them by two pairs of columns, and another query is read. -/
theorem compile_hasScopedQueries_aboveAverage :
    ∃ ring compiled, Ring.ofDocument (staffDocument "employee_badge") = .ok ring ∧
      compile aboveAverage ring {} = .ok compiled ∧
      (compiled.select.joinsOf .leftOuter).map (·.table.name) = ["badge", "department"] ∧
      (compiled.select.joinsOf .cross).length = 1 ∧ compiled.HasScopedQueries ring {} := by
  have runs : (Ring.ofDocument (staffDocument "employee_badge") >>= fun ring =>
      (compile aboveAverage ring {}).map fun compiled =>
        ((compiled.select.joinsOf .leftOuter).map (·.table.name),
          (compiled.select.joinsOf .cross).length)) = .ok (["badge", "department"], 1) := by
    decide +kernel
  obtain ⟨ring, loads, runs⟩ := bind_eq_ok_iff.mp runs
  obtain ⟨compiled, compiles, same⟩ := map_eq_ok_iff.mp runs
  obtain ⟨outer, cross⟩ := Prod.mk.inj same
  exact ⟨ring, compiled, loads, compiles, outer, cross, compile_hasScopedQueries loads compiles⟩

end SemanticQuery
