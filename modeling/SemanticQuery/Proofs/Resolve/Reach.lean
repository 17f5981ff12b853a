import SemanticQuery.Proofs.Resolve.Scoping

/-!
# The tables of attributes

The tables of a query are that of its first entity and those of the joins it needs.  Over a linked
ring they include the table of every attribute that the query reads.  An accepted ring need not be
linked: what the joins of an attribute lead to is not compared with its table.
-/

namespace SemanticQuery

open Sql

/-- The table of the database that a table is, if it is no query. -/
def Sql.TableRef.physical? : TableRef Select → Option String
  | .table name => some name
  | .derived .. => none

def Sql.Select.physicalTables (select : Select) : List String :=
  (select.source :: (select.joinsOf .leftOuter).map (·.table)).filterMap (·.physical?)

/-- What the tables of a query have to do with the attributes that it reads. -/
structure IsReached (ring : Ring) (draft : Draft) (select : Select) : Prop where
  /-- The tables are the source and those of the joins that are needed. -/
  tables : ∀ start, select.source = .table start → ∀ table,
    table ∈ select.physicalTables ↔ table = start ∨ ring.reaches draft.joins table = true
  /-- Each expression reads the columns of what occurs in its handle. -/
  columns : ∀ expr ∈ select.evaluated, ∃ handle ∈ draft.handles, ∀ column,
    column ∈ expr.columns ↔
      ∃ inner : Handle, inner.Occurs handle ∧ inner.column? ring = some column
  /-- An attribute has a column, and over a linked ring the table of that is there. -/
  attributes : ∀ handle ∈ draft.handles, ∀ entity name,
    (Handle.field entity name).Occurs handle →
    ∃ start column, select.source = .table start ∧ ring.storedIn? entity name = some column ∧
      (ring.isLinked = true → column.table ∈ select.physicalTables)

namespace Compilation

variable {compilation : Compilation} {draft resolved : Draft} {select : Select}

/-- The joins of each entity with the first one are among those of all entities. -/
theorem exists_of_joinsAmong {ring : Ring} {first other : String} {rest between : List String}
    (found : joinsAmong ring (first :: rest) = .ok between) (member : other ∈ rest) :
    ∃ names, ring.joinsBetween first other = .ok names ∧ names ⊆ between := by
  have pair : [first, other].Sublist (first :: rest) :=
    (List.singleton_sublist.mpr member).cons_cons first
  obtain ⟨names, namesOk⟩ := exists_joinsBetween_of_joinsAmong found pair
  exact ⟨names, namesOk, fun name needed =>
    (mem_joinsAmong found).mpr ⟨first, other, names, pair, namesOk, needed⟩⟩

/-- The source of a draft that reads an entity is the table of the first one. -/
theorem exists_of_origin {source : TableRef Select} {subplans : List SubplanId}
    (found : compilation.origin draft = .ok (source, subplans)) {name : String}
    (member : name ∈ draft.entitySources) :
    ∃ first rest entity, draft.entitySources = first :: rest ∧
      compilation.ring.entity? first = some entity ∧ source = .table entity.table := by
  unfold origin at found
  split at found
  · rename_i first rest sources
    obtain ⟨entity, isEntity, same⟩ := bind_eq_ok_iff.mp found
    cases same
    exact ⟨first, rest, entity, sources, Ring.entity_eq_ok_iff.mp isEntity, rfl⟩
  · rename_i sources _
    rw [sources] at member
    cases member
  · cases found

theorem physicalTables_eq (areTables : Attached.AreTables (select.joinsOf .leftOuter))
    {start : String} (source : select.source = .table start) :
    select.physicalTables = JoinClause.tablesFrom start (select.joinsOf .leftOuter) := by
  have names (clauses : List (JoinClause Select)) (areTables : Attached.AreTables clauses) :
      (clauses.map (·.table)).filterMap (·.physical?) = clauses.map (·.table.name) := by
    induction clauses with
    | nil => rfl
    | cons clause rest ih =>
        obtain ⟨name, isTable⟩ := areTables clause List.mem_cons_self
        have physical : clause.table.physical? = some clause.table.name := by
          rw [isTable]
          rfl
        rw [List.map_cons, List.map_cons, List.filterMap_cons, physical,
          ih fun other member => areTables other (List.mem_cons_of_mem _ member)]
  rw [Select.physicalTables, source, JoinClause.tablesFrom, ← names _ areTables]
  rfl

/-- The tables of a query are its first one and those of the joins that it needs. -/
theorem IsJoined.mem_physicalTables (isJoined : IsJoined compilation draft select resolved)
    {start : String} (source : select.source = .table start) {table : String} :
    table ∈ select.physicalTables ↔
      table = start ∨ compilation.ring.reaches resolved.joins table = true := by
  obtain ⟨joins, tables, joinsOk, rooted⟩ := isJoined.rooted
  have isStart : select.source.name = start := by rw [source, TableRef.name]
  rw [physicalTables_eq isJoined.areTables source, ← isStart, ← rooted.tables, rooted.ends,
    Ring.reaches_iff]
  refine or_congr_right ⟨?_, ?_⟩
  · rintro ⟨join, listed, ends⟩
    obtain ⟨name, needed, found⟩ := exists_of_mem_mapM joinsOk listed
    exact ⟨name, needed, join, found, ends⟩
  · rintro ⟨name, needed, join, found, ends⟩
    obtain ⟨same, listed, sameFound⟩ := exists_result_of_mem_mapM joinsOk needed
    rw [found] at sameFound
    cases sameFound
    exact ⟨join, listed, ends⟩

/-- Over a linked ring the table of each entity that is read is there. -/
theorem mem_physicalTables_of_entity (linked : compilation.ring.isLinked = true)
    (isQuery : IsQuery compilation draft select resolved)
    (isJoined : IsJoined compilation draft select resolved)
    (evaluates : Evaluates compilation draft select resolved) {name : String} {entity : Entity}
    (member : name ∈ draft.entitySources) (known : compilation.ring.entity? name = some entity) :
    entity.table ∈ select.physicalTables := by
  obtain ⟨subplans, attached, crossed, originOk, -⟩ := isQuery.tables
  obtain ⟨first, rest, owner, sources, isOwner, source⟩ := exists_of_origin originOk member
  rw [isJoined.mem_physicalTables source]
  by_cases same : first = name
  · rw [← same, isOwner] at known
    cases known
    exact .inl rfl
  · rw [sources] at member
    have later : name ∈ rest := (List.mem_cons.mp member).resolve_left (Ne.symm same)
    obtain ⟨between, betweenOk, needed⟩ := evaluates.between
    rw [sources] at betweenOk
    obtain ⟨names, namesOk, fewer⟩ := exists_of_joinsAmong betweenOk later
    have reached := Ring.reaches_of_joinsBetween linked same namesOk known
    exact .inr (Ring.reaches_mono (List.Subset.trans fewer needed) reached)

theorem isReached_of_query {ring : Ring} (isRing : compilation.ring = ring)
    (proper : ∀ join ∈ ring.joins, join.IsProper) (sourced : draft.IsSourced)
    (compiled : compilation.query draft = .ok (select, resolved)) :
    IsReached ring resolved select := by
  subst isRing
  have isQuery := isQuery_of_query compiled
  have isJoined := isQuery.isJoined proper
  have evaluates := evaluates_of_query compiled
  obtain ⟨results, resolves, needed, exprs⟩ := evaluates.results
  have sameHandles : resolved.handles = draft.handles := by rw [isQuery.resolved_eq]; rfl
  refine ⟨fun start source table => isJoined.mem_physicalTables source, ?_, ?_⟩
  · intro expr member
    obtain ⟨result, listed, rfl⟩ := exprs expr member
    obtain ⟨handle, isHandle, found⟩ := exists_of_mem_mapM resolves listed
    exact ⟨handle, sameHandles ▸ isHandle, fun column => Handle.mem_columns_resolve found⟩
  · intro handle member entityName name occurs
    rw [sameHandles] at member
    obtain ⟨result, listed, found⟩ := exists_result_of_mem_mapM resolves member
    obtain ⟨field, fieldOk, fewer⟩ := Handle.exists_resolve_of_occurs occurs found
    rw [Handle.resolve] at fieldOk
    obtain ⟨entity, column, isField⟩ := Scope.exists_isField fieldOk
    have isSource : entityName ∈ draft.entitySources := by
      have reads := sourced.handles handle member _ occurs (.entity entityName) rfl
      exact List.mem_filterMap.mpr ⟨_, reads, rfl⟩
    obtain ⟨subplans, attached, crossed, originOk, -⟩ := isQuery.tables
    obtain ⟨first, rest, owner, sources, isOwner, source⟩ := exists_of_origin originOk isSource
    refine ⟨owner.table, column, source, isField.stored, ?_⟩
    intro linked
    have inTable : entity.table ∈ select.physicalTables :=
      mem_physicalTables_of_entity linked isQuery isJoined evaluates isSource isField.known
    by_cases own : column.table = entity.table
    · exact own ▸ inTable
    · obtain ⟨a, isAttribute, isTable, joins⟩ := isField.joins.resolve_left own
      have reached := Ring.reaches_of_attributeJoins linked isField.known isAttribute
        (isTable ▸ own) joins
      rw [isJoined.mem_physicalTables source, ← isTable]
      exact .inr (Ring.reaches_mono (List.Subset.trans fewer (needed result listed)) reached)

end Compilation

/-- In every query within a compiled one, an attribute's column is in scope exactly if its table is
that of the first entity or one of a join that the draft needs.  Over a linked ring all are. -/
theorem compile_isReached {document : Document} {ring : Ring} {raw : Entries String String}
    {settings : Settings} {compiled : Compiled} (loads : Ring.ofDocument document = .ok ring)
    (compiles : compile raw ring settings = .ok compiled) {select : Select}
    (isPart : select.IsPart compiled.select) :
    ∃ draft ∈ compiled.drafts, IsReached ring draft select := by
  obtain ⟨plan, parsed, compiles⟩ := bind_eq_ok_iff.mp compiles
  obtain ⟨drafts, drafted, compiles⟩ := bind_eq_ok_iff.mp compiles
  obtain ⟨resolution, resolves, same⟩ := bind_eq_ok_iff.mp compiles
  cases same
  have sourced := ((Plan.isDivided_of_parse parsed).isSourced_of_drafts drafted).2
  refine exists_draft_of_isPart_of_ring ?_ resolves isPart
  intro draft member compilation query resolved isRing compiled
  exact Compilation.isReached_of_query isRing (Ring.isProper_of_ofDocument loads)
    (sourced draft member) compiled

/-- The badge of an employee and the name of a department are in tables of their own, and both are
reached. -/
theorem compile_isReached_aboveAverage :
    ∃ ring compiled, Ring.ofDocument (staffDocument "employee_badge") = .ok ring ∧
      compile aboveAverage ring {} = .ok compiled ∧ ring.isLinked = true ∧
      compiled.select.physicalTables = ["employee", "badge", "department"] ∧
      ∃ draft ∈ compiled.drafts, IsReached ring draft compiled.select := by
  have runs : (Ring.ofDocument (staffDocument "employee_badge") >>= fun ring =>
      (compile aboveAverage ring {}).map fun compiled =>
        (ring.isLinked, compiled.select.physicalTables)) =
      .ok (true, ["employee", "badge", "department"]) := by
    decide +kernel
  obtain ⟨ring, loads, runs⟩ := bind_eq_ok_iff.mp runs
  obtain ⟨compiled, compiles, same⟩ := map_eq_ok_iff.mp runs
  obtain ⟨linked, tables⟩ := Prod.mk.inj same
  exact ⟨ring, compiled, loads, compiles, linked, tables, compile_isReached loads compiles .refl⟩

def badges : Entries String String :=
  [("|1|", "(retrieve_entity Employee)"), ("|2|", "(retrieve_attribute |1| badge)"),
    ("|3|", "(collect |2|)"), ("|4|", "(return |3|)")]

/-- With a join of a badge that leads to the departments, the ring is accepted and the column of the
badge is read from a table that is not there. -/
theorem exists_attribute_out_of_reach :
    ∃ ring compiled, Ring.ofDocument (staffDocument "employee_department") = .ok ring ∧
      compile badges ring {} = .ok compiled ∧
      ∃ expr ∈ compiled.select.evaluated, ∃ column ∈ expr.columns,
        ring.storedIn? "Employee" "badge" = some column ∧
        column.table ∉ compiled.select.physicalTables := by
  have runs : (Ring.ofDocument (staffDocument "employee_department") >>= fun ring =>
      (compile badges ring {}).map fun compiled =>
        compiled.select.evaluated.any fun expr => expr.columns.any fun column =>
          ring.storedIn? "Employee" "badge" = some column ∧
            column.table ∉ compiled.select.physicalTables) = .ok true := by
    decide +kernel
  obtain ⟨ring, loads, runs⟩ := bind_eq_ok_iff.mp runs
  obtain ⟨compiled, compiles, found⟩ := map_eq_ok_iff.mp runs
  obtain ⟨expr, member, found⟩ := List.any_eq_true.mp found
  obtain ⟨column, reads, found⟩ := List.any_eq_true.mp found
  exact ⟨ring, compiled, loads, compiles, expr, member, column, reads, of_decide_eq_true found⟩

end SemanticQuery
