import SemanticQuery.Proofs.Resolve.Scoping

/-!
# The joins that drafts need

Joins are collected while the handles of a draft are resolved, and those between its entities are
added.  What is recorded is exactly what the fields and the entities need; nothing is dropped on the
way.  Each of these joins brings in one table or has both its tables there already.  This holds of all
drafts that resolve, whether or not they are drawn from a plan.
-/

namespace SemanticQuery

open Sql

/-! ## Following joins -/

namespace Sql.JoinClause

/-- Clauses follow joins one by one, each from the tables that are there before it. -/
inductive FollowAll : (there : List String) → List Join → List (JoinClause Select) → Prop where
  | nil {there : List String} : FollowAll there [] []
  | cons {there : List String} {join : Join} {clause : JoinClause Select} {joins : List Join}
      {clauses : List (JoinClause Select)} (first : clause.Follows there join)
      (others : FollowAll (there ++ [clause.table.name]) joins clauses) :
      FollowAll there (join :: joins) (clause :: clauses)

variable {there : List String} {joins : List Join} {clauses : List (JoinClause Select)}

/-- Clauses that each follow one of some joins follow a list of them. -/
theorem exists_followAll
    (each : ∀ before clause after, clauses = before ++ clause :: after →
      ∃ join ∈ joins, clause.Follows (tablesAfter there before) join) :
    ∃ followed ⊆ joins, FollowAll there followed clauses := by
  induction clauses generalizing there with
  | nil => exact ⟨[], List.nil_subset _, .nil⟩
  | cons clause rest ih =>
      obtain ⟨join, listed, first⟩ := each [] clause rest rfl
      rw [tablesAfter, List.map_nil, List.append_nil] at first
      have later : ∀ before next after, rest = before ++ next :: after → ∃ join ∈ joins,
          next.Follows (tablesAfter (there ++ [clause.table.name]) before) join := by
        intro before next after whole
        have found := each (clause :: before) next after (by rw [whole, List.cons_append])
        rwa [tablesAfter, List.map_cons, List.append_cons] at found
      obtain ⟨followed, fewer, others⟩ := ih later
      exact ⟨join :: followed, List.cons_subset.mpr ⟨listed, fewer⟩, .cons first others⟩

namespace FollowAll

/-- A join with both its tables there is not followed. -/
theorem not_mem {join : Join} (follows : FollowAll there joins clauses)
    (both : ∀ table, join.HasEnd table → table ∈ there) : join ∉ joins := by
  induction follows with
  | nil => exact List.not_mem_nil
  | cons first _ ih =>
      have later := ih fun table isEnd => List.mem_append_left _ (both table isEnd)
      refine List.not_mem_cons_of_ne_of_not_mem ?_ later
      rintro rfl
      cases first with
      | forward _ isNew => exact isNew (both _ (.inr rfl))
      | backward _ isNew => exact isNew (both _ (.inl rfl))

/-- No join is followed twice: after the first time both its tables are there. -/
theorem nodup (follows : FollowAll there joins clauses) : joins.Nodup := by
  induction follows with
  | nil => exact List.nodup_nil
  | cons first others ih =>
      exact List.nodup_cons.mpr ⟨others.not_mem fun table => first.mem_of_hasEnd, ih⟩

end FollowAll

end Sql.JoinClause

/-- What clauses after a first table make of named joins. -/
structure Ring.Follows (ring : Ring) (names : NameSet) (start : String)
    (clauses : List (JoinClause Select)) (followed : List Join) : Prop where
  /-- Each clause is that of one of the joins. -/
  follows : JoinClause.FollowAll [start] followed clauses
  named : ∀ join ∈ followed, ring.IsNamed names join
  /-- Each of the joins has one clause, or none because its tables are there. -/
  once : ∀ name ∈ names, ∃ join, ring.join name = .ok join ∧ (followed.count join = 1 ∨
    join ∉ followed ∧ ∀ table, join.HasEnd table → table ∈ JoinClause.tablesFrom start clauses)
  /-- In the end the tables of all joins are there. -/
  tables : ∀ join, ring.IsNamed names join →
    ∀ table, join.HasEnd table → table ∈ JoinClause.tablesFrom start clauses

theorem Ring.exists_follows_of_attach {ring : Ring} {subplan : SubplanId} {names : NameSet}
    {start : String} {clauses : List (JoinClause Select)}
    (attached : (ring.attach subplan names [start]).1 = .ok clauses) :
    ∃ followed, ring.Follows names start clauses followed := by
  obtain ⟨joins, reached, found, spread⟩ := exists_isSpread_of_attach_eq_ok attached
  have isNamed := mem_iff_isNamed found
  obtain ⟨followed, fewer, follows⟩ := JoinClause.exists_followAll spread.followed
  have tables (join : Join) (named : ring.IsNamed names join) (table : String)
      (isEnd : join.HasEnd table) : table ∈ JoinClause.tablesFrom start clauses := by
    have inside := (spread.done join ((isNamed join).mpr named)).resolve_left List.not_mem_nil
    exact (spread.tables table).mp (inside table isEnd)
  refine ⟨followed, follows, fun join member => (isNamed join).mp (fewer member), ?_, tables⟩
  intro name needed
  obtain ⟨join, listed, isJoin⟩ := exists_result_of_mem_mapM found needed
  refine ⟨join, isJoin, ?_⟩
  by_cases member : join ∈ followed
  · exact .inl (List.count_eq_one_of_mem follows.nodup member)
  · exact .inr ⟨member, tables join ((isNamed join).mp listed)⟩

/-! ## One draft -/

/-- A join is needed for a draft: by a field in one of its handles, or between two of its entities. -/
def Draft.NeedsJoin (ring : Ring) (draft : Draft) (name : String) : Prop :=
  (∃ handle ∈ draft.handles, handle.NeedsJoin ring name) ∨
    ∃ first second joins, [first, second].Sublist draft.entitySources ∧
      ring.joinsBetween first second = .ok joins ∧ name ∈ joins

/-- The joins that are recorded for a draft are those that it needs, and its query has their
tables. -/
structure Draft.HasNeededJoins (ring : Ring) (draft : Draft) (select : Select) : Prop where
  sorted : draft.joins.Pairwise (· < ·)
  exactly : ∀ name, name ∈ draft.joins ↔ draft.NeedsJoin ring name
  /-- The joins of all fields and pairs of entities are known. -/
  fields : ∀ handle ∈ draft.handles, ∀ entity name, (Handle.field entity name).Occurs handle →
    ∃ joins, ring.fieldJoins entity name = .ok joins
  pairs : ∀ first second, [first, second].Sublist draft.entitySources →
    ∃ joins, ring.joinsBetween first second = .ok joins
  clauses : ∃ followed,
    ring.Follows draft.joins select.source.name (select.joinsOf .leftOuter) followed

namespace Compilation

variable {compilation : Compilation} {draft resolved : Draft} {select : Select}

/-- The joins that are collected for a draft are those that it needs. -/
theorem Parts.Compose.mem_needed_iff {parts : Parts}
    (composed : parts.Compose compilation draft select resolved) {name : String} :
    name ∈ parts.needed ↔ draft.NeedsJoin compilation.ring name := by
  have resolves := composed.mapM_handles
  rw [Parts.mem_needed, mem_joinsAmong composed.between]
  refine or_congr_left ⟨?_, ?_⟩
  · rintro ⟨result, member, listed⟩
    obtain ⟨handle, isHandle, found⟩ := exists_of_mem_mapM resolves member
    exact ⟨handle, isHandle, (Handle.mem_joins_resolve found).mp listed⟩
  · rintro ⟨handle, isHandle, needed⟩
    obtain ⟨result, member, found⟩ := exists_result_of_mem_mapM resolves isHandle
    exact ⟨result, member, (Handle.mem_joins_resolve found).mpr needed⟩

theorem hasNeededJoins_of_query {ring : Ring} (isRing : compilation.ring = ring)
    (compiled : compilation.query draft = .ok (select, resolved)) :
    resolved.HasNeededJoins ring select := by
  subst isRing
  obtain ⟨parts, composed⟩ := exists_parts_of_query compiled
  obtain ⟨-, -, attached, -⟩ := (isQuery_of_query compiled).exists_joins
  have resolves := composed.mapM_handles
  rw [composed.resolved_eq] at attached ⊢
  refine ⟨pairwise_sortedSet Function.injective_id _, fun name => composed.mem_needed_iff, ?_, ?_,
    Ring.exists_follows_of_attach attached⟩
  · intro handle member entity name occurs
    obtain ⟨result, -, found⟩ := exists_result_of_mem_mapM resolves member
    obtain ⟨field, fieldOk, -⟩ := Handle.exists_resolve_of_occurs occurs found
    rw [Handle.resolve] at fieldOk
    exact ⟨field.joins, Scope.fieldJoins_of_field fieldOk⟩
  · exact fun first second pair => exists_joinsBetween_of_joinsAmong composed.between pair

/-! ## All drafts -/

variable {ring : Ring} {settings : Settings} {start state : Compilation × List Draft}

structure IsExtension (drafts : List Draft) (state after : Compilation × List Draft) : Prop where
  ring : after.1.ring = state.1.ring
  recorded : ∃ added, after.2 = state.2 ++ added ∧ added.length = drafts.length
  queries : ∀ id, id ∉ drafts.map (·.id) → after.1.queries.get? id = state.1.queries.get? id

theorem IsExtension.add {before : List Draft} {after : Compilation × List Draft}
    (isExtension : IsExtension before start state) (added : add state draft = .ok after) :
    IsExtension (before ++ [draft]) start after := by
  obtain ⟨⟨select, resolved⟩, -, same⟩ := bind_eq_ok_iff.mp added
  cases same
  obtain ⟨results, whole, length⟩ := isExtension.recorded
  refine ⟨isExtension.ring, ⟨results ++ [resolved], ?_, ?_⟩, ?_⟩
  · rw [whole, List.append_assoc]
  · rw [List.length_append, List.length_append, length]
    rfl
  · intro id absent
    rw [List.map_append, List.mem_append, not_or, List.map_singleton, List.mem_singleton] at absent
    rw [Entries.get?_put, if_neg (Ne.symm absent.2)]
    exact isExtension.queries id absent.1

theorem isExtension_of_run {drafts : List Draft} {after : Compilation × List Draft}
    (run : drafts.foldlM add state = .ok after) : IsExtension drafts state after := by
  refine foldlM_keeps_prefix (fun before middle => IsExtension before state middle) ?_
    ⟨rfl, ⟨[], (List.append_nil _).symm, rfl⟩, fun _ _ => rfl⟩ run
  exact fun before draft later middle after _ known added => known.add added

/-- When it is a draft's turn it becomes a query and a draft with joins.  The draft stays recorded at
its place.  The query stays that of its subplan, unless a later draft is one of the same subplan. -/
structure IsTurn (start final : Compilation × List Draft) (before : List Draft) (draft : Draft)
    (after : List Draft) (select : Select) (resolved : Draft) : Prop where
  compiled : ∃ state, before.foldlM add start = .ok state ∧
    state.1.query draft = .ok (select, resolved)
  recorded : final.2[before.length]? = some resolved
  kept : draft.id ∉ after.map (·.id) → final.1.queries.get? draft.id = some select

theorem exists_isTurn_of_run {before after : List Draft} {final : Compilation × List Draft}
    (empty : start.2 = []) (run : (before ++ draft :: after).foldlM add start = .ok final) :
    ∃ select resolved, IsTurn start final before draft after select resolved := by
  rw [List.foldlM_append, bind_eq_ok_iff] at run
  obtain ⟨state, first, run⟩ := run
  rw [List.foldlM_cons, bind_eq_ok_iff] at run
  obtain ⟨next, added, rest⟩ := run
  obtain ⟨⟨select, resolved⟩, compiled, same⟩ := bind_eq_ok_iff.mp added
  cases same
  have later := isExtension_of_run rest
  obtain ⟨earlier, isEarlier, length⟩ := (isExtension_of_run first).recorded
  obtain ⟨more, isMore, -⟩ := later.recorded
  rw [empty, List.nil_append] at isEarlier
  refine ⟨select, resolved, ⟨state, first, compiled⟩, ?_, ?_⟩
  · rw [isMore, isEarlier, List.append_assoc, List.getElem?_append_right (Nat.le_of_eq length),
      length, Nat.sub_self]
    rfl
  · intro absent
    rw [later.queries _ absent, Entries.get?_put, if_pos rfl]

/-- The state after some drafts were compiled: each is recorded with the joins that it needs. -/
structure HaveNeededJoins (ring : Ring) (settings : Settings) (drafts : List Draft)
    (final : Compilation × List Draft) : Prop where
  run : drafts.foldlM add ({ ring, settings }, []) = .ok final
  length : final.2.length = drafts.length
  each : ∀ before draft after, drafts = before ++ draft :: after → ∃ select resolved,
    IsTurn ({ ring, settings }, []) final before draft after select resolved ∧
    resolved = { draft with joins := resolved.joins } ∧ resolved.HasNeededJoins ring select

theorem haveNeededJoins_of_run {drafts : List Draft} {final : Compilation × List Draft}
    (run : drafts.foldlM add ({ ring, settings }, []) = .ok final) :
    HaveNeededJoins ring settings drafts final := by
  obtain ⟨results, whole, length⟩ := (isExtension_of_run run).recorded
  refine ⟨run, whole ▸ length, ?_⟩
  rintro before draft after rfl
  obtain ⟨select, resolved, isTurn⟩ := exists_isTurn_of_run rfl run
  obtain ⟨state, first, compiled⟩ := isTurn.compiled
  exact ⟨select, resolved, isTurn, (isQuery_of_query compiled).resolved_eq,
    hasNeededJoins_of_query (isExtension_of_run first).ring compiled⟩

end Compilation

/-- Whenever drafts resolve, the joins recorded for each of them are exactly those that the fields of
its handles need and those between its entities.  Each has one clause in the query of the draft, or none
because its two tables are there. -/
theorem resolveDrafts_hasNeededJoins {ring : Ring} {settings : Settings} {drafts : List Draft}
    {resolution : Resolution} (resolves : resolveDrafts ring settings drafts = .ok resolution) :
    ∃ compilation : Compilation,
      Compilation.HaveNeededJoins ring settings drafts (compilation, resolution.drafts) ∧
      compilation.queries.getLast?.map (·.2) = some resolution.select := by
  obtain ⟨compilation, run, last⟩ := exists_run_of_resolveDrafts resolves
  exact ⟨compilation, Compilation.haveNeededJoins_of_run run, last⟩

/-- Two drafts of one subplan, which no plan has. What is recorded for the second beforehand does not
count. -/
def twofold : List Draft :=
  [{ id := ⟨0⟩
     select := ["badge"]
     fields := [("badge", .field "Employee" "badge")]
     sources := [.entity "Employee"] },
   { id := ⟨0⟩
     select := ["name"]
     fields := [("name", .field "Department" "name")]
     sources := [.entity "Employee", .entity "Department"]
     joins := ["employee_badge"] }]

/-- A badge is joined by a field, and a department between two entities. -/
theorem resolveDrafts_hasNeededJoins_twofold :
    ∃ ring resolution, Ring.ofDocument (staffDocument "employee_badge") = .ok ring ∧
      resolveDrafts ring {} twofold = .ok resolution ∧
      resolution.drafts.map (·.joins) = [["employee_badge"], ["employee_department"]] ∧
      ∃ compilation : Compilation,
        Compilation.HaveNeededJoins ring {} twofold (compilation, resolution.drafts) ∧
        compilation.queries.getLast?.map (·.2) = some resolution.select := by
  have runs : (Ring.ofDocument (staffDocument "employee_badge") >>= fun ring =>
      (resolveDrafts ring {} twofold).map fun resolution => resolution.drafts.map (·.joins)) =
      .ok [["employee_badge"], ["employee_department"]] := by
    decide +kernel
  obtain ⟨ring, loads, runs⟩ := bind_eq_ok_iff.mp runs
  obtain ⟨resolution, resolves, joins⟩ := map_eq_ok_iff.mp runs
  exact ⟨ring, resolution, loads, resolves, joins, resolveDrafts_hasNeededJoins resolves⟩

/-- The subplans of a compiled plan are distinct, so that each keeps its query. -/
theorem compile_hasNeededJoins {ring : Ring} {raw : Entries String String} {settings : Settings}
    {compiled : Compiled} (compiles : compile raw ring settings = .ok compiled) :
    ∃ drafts compilation, compiled.plan.drafts = .ok drafts ∧ (drafts.map (·.id)).Nodup ∧
      Compilation.HaveNeededJoins ring settings drafts (compilation, compiled.drafts) ∧
      compilation.queries.getLast?.map (·.2) = some compiled.select := by
  obtain ⟨plan, parsed, compiles⟩ := bind_eq_ok_iff.mp compiles
  obtain ⟨drafts, drafted, compiles⟩ := bind_eq_ok_iff.mp compiles
  obtain ⟨resolution, resolves, same⟩ := bind_eq_ok_iff.mp compiles
  cases same
  obtain ⟨compilation, run, last⟩ := exists_run_of_resolveDrafts resolves
  have distinct := (Plan.isDivided_of_parse parsed).nodup_drafts drafted
  exact ⟨drafts, compilation, drafted, distinct, Compilation.haveNeededJoins_of_run run, last⟩

end SemanticQuery
