import SemanticQuery.Proofs.Draft.Drawn
import SemanticQuery.Proofs.Draft.Readers
import SemanticQuery.Proofs.Resolve.Scoping
import SemanticQuery.Result

/-!
# The nesting of queries

The query of a whole plan is that of its outermost subplan, the one of the terminal step.  Every other
subplan is a source of a later one, so its query occurs within the query of the whole plan; and only
queries of other subplans do, each under the name of its subplan.
-/

namespace SemanticQuery

open Sql

/-! ## The outermost draft -/

/-- Drafts that end in one of them: each reads only drafts with smaller numbers, that one has the largest
number, and every other one is read. -/
structure Draft.EndIn (drafts : List Draft) (last : Draft) : Prop where
  member : last ∈ drafts
  sources : ∀ draft ∈ drafts, ∀ id ∈ draft.subplanSources,
    ∃ other ∈ drafts, other.id = id ∧ id.number < draft.id.number
  greatest : ∀ draft ∈ drafts, draft.id.number ≤ last.id.number
  read : ∀ draft ∈ drafts, draft.id ≠ last.id → ∃ reader ∈ drafts, draft.id ∈ reader.subplanSources

namespace Plan

variable {plan : Plan} {raw : Entries String String} {drafts : List Draft}

/-- The outermost subplan comes last, and its root is the terminal step. -/
theorem exists_outermost (parsed : parse raw = .ok plan) :
    ∃ front final, plan.subplans = front ++ [final] ∧ final.id = plan.outermost ∧
      final.root = plan.terminal := by
  have arranged := isArranged_of_parse parsed
  obtain ⟨steps, -, -, formed⟩ := parse_eq_ok_iff.mp parsed
  obtain ⟨subplan, found, outermost⟩ := (isFormed_of_ofSteps formed).outermost_eq
  obtain ⟨front, final, whole, isRoot⟩ := arranged.decomposed.last
  have same : subplan = final := by
    refine arranged.eq_of_root_eq (List.mem_of_find?_eq_some found) (by simp [whole]) ?_
    rw [isRoot]
    simpa using List.find?_some found
  exact ⟨front, final, whole, same ▸ outermost.symm, isRoot⟩

/-- The root of every other subplan is not the terminal step. -/
theorem root_ne_terminal (parsed : parse raw = .ok plan) {subplan : Subplan}
    (listed : subplan ∈ plan.subplans) (inner : subplan.id ≠ plan.outermost) :
    subplan.root ≠ plan.terminal := by
  obtain ⟨front, final, whole, outermost, isRoot⟩ := exists_outermost parsed
  intro isTerminal
  have same : subplan = final := (isArranged_of_parse parsed).eq_of_root_eq listed (by simp [whole])
    (isTerminal.trans isRoot.symm)
  exact inner (same ▸ outermost)

/-- The last draft is that of the outermost subplan. -/
theorem exists_last_draft (parsed : parse raw = .ok plan) (drafted : plan.drafts = .ok drafts) :
    ∃ front last, drafts = front ++ [last] ∧ last.id = plan.outermost := by
  have ids := ((isDivided_of_parse parsed).isSourced_of_drafts drafted).1
  obtain ⟨_, final, whole, outermost, -⟩ := exists_outermost parsed
  rw [whole, List.map_append, List.map_singleton] at ids
  obtain ⟨front, lastOnly, rfl, -, isLast⟩ := List.map_eq_append_iff.mp ids
  obtain ⟨last, rfl, lastId⟩ := List.map_eq_singleton_iff.mp isLast
  exact ⟨front, last, rfl, lastId.trans outermost⟩

/-- The drafts of all other subplans are read. -/
theorem exists_reader (parsed : parse raw = .ok plan) (drafted : plan.drafts = .ok drafts)
    {draft : Draft} (member : draft ∈ drafts) (inner : draft.id ≠ plan.outermost) :
    ∃ reader ∈ drafts, draft.id ∈ reader.subplanSources := by
  have ids := ((isDivided_of_parse parsed).isSourced_of_drafts drafted).1
  have isId : draft.id ∈ plan.subplans.map (·.id) := ids ▸ List.mem_map_of_mem member
  obtain ⟨subplan, listed, sameId⟩ := List.mem_map.mp isId
  rw [← sameId] at inner ⊢
  obtain ⟨reader, isReader, isSource⟩ :=
    exists_draft_of_root_ne parsed drafted listed (root_ne_terminal parsed listed inner)
  exact ⟨reader, isReader, Draft.mem_subplanSources.mpr isSource⟩

/-- The drafts of a plan end in that of its outermost subplan. -/
theorem exists_endIn_of_drafts (parsed : parse raw = .ok plan) (drafted : plan.drafts = .ok drafts) :
    ∃ front last, drafts = front ++ [last] ∧ last.id = plan.outermost ∧ Draft.EndIn drafts last := by
  have increasing := (isDivided_of_parse parsed).increasing_drafts drafted
  have drawn := areDrawn_of_drafts drafted
  obtain ⟨front, last, rfl, outermost⟩ := exists_last_draft parsed drafted
  refine ⟨front, last, rfl, outermost, by simp, ?_, ?_, ?_⟩
  · intro draft member id reads
    obtain ⟨before, later, split⟩ := List.append_of_mem member
    obtain ⟨other, isEarlier, rfl⟩ := List.mem_map.mp
      ((drawn before draft later split).sources id (Draft.mem_subplanSources.mp reads))
    rw [split] at increasing ⊢
    exact ⟨other, List.mem_append_left _ isEarlier, rfl,
      (List.pairwise_append.mp increasing).2.2 other isEarlier draft List.mem_cons_self⟩
  · intro draft member
    rcases List.mem_append.mp member with earlier | isLast
    · exact ((List.pairwise_append.mp increasing).2.2 draft earlier last List.mem_cons_self).le
    · rw [List.mem_singleton.mp isLast]
  · intro draft member inner
    exact exists_reader parsed drafted member (outermost ▸ inner)

end Plan

/-! ## Queries within queries -/

namespace Compilation

variable {drafts before : List Draft} {draft : Draft}

/-- Every draft that was compiled has a query, which reads those of the draft's subplans. -/
structure AreNested (drafts : List Draft) (compilation : Compilation) : Prop where
  keys : compilation.queries.map (·.1) = drafts.map (·.id)
  queries : ∀ draft ∈ drafts, ∃ select, compilation.queries.get? draft.id = some select ∧
    ∀ label inner, select.ReadsAs label inner ↔
      ∃ id ∈ draft.subplanSources, label = id.text ∧ compilation.queries.get? id = some inner

theorem areNested_add {state after : Compilation × List Draft}
    (fresh : draft.id ∉ before.map (·.id))
    (earlier : ∀ other ∈ before ++ [draft], ∀ id ∈ other.subplanSources, id ∈ before.map (·.id))
    (nested : AreNested before state.1) (added : add state draft = .ok after) :
    AreNested (before ++ [draft]) after.1 := by
  obtain ⟨⟨query, resolved⟩, compiled, same⟩ := bind_eq_ok_iff.mp added
  cases same
  have kept {id : SubplanId} (known : id ∈ before.map (·.id)) :
      (state.1.queries.put draft.id query).get? id = state.1.queries.get? id := by
    rw [Entries.get?_put, if_neg]
    rintro rfl
    exact fresh known
  refine ⟨?_, ?_⟩
  · rw [Entries.put_of_not_mem (nested.keys ▸ fresh), List.map_append, nested.keys, List.map_append]
    rfl
  · intro other member
    have sources (label : String) (inner : Select) :
        (∃ id ∈ other.subplanSources, label = id.text ∧ state.1.queries.get? id = some inner) ↔
          ∃ id ∈ other.subplanSources, label = id.text ∧
            (state.1.queries.put draft.id query).get? id = some inner :=
      exists_congr fun id => and_congr_right fun reads => by rw [kept (earlier other member id reads)]
    rcases List.mem_append.mp member with isEarlier | last
    · obtain ⟨select, found, reads⟩ := nested.queries other isEarlier
      exact ⟨select, (kept (List.mem_map_of_mem isEarlier)).trans found,
        fun label inner => (reads label inner).trans (sources label inner)⟩
    · cases List.mem_singleton.mp last
      refine ⟨query, by rw [Entries.get?_put, if_pos rfl], fun label inner => ?_⟩
      exact (isQuery_of_query compiled).readsAs_iff.trans (sources label inner)

/-- Compiling the drafts of a plan gives each a query. -/
theorem areNested_of_foldlM {plan : Plan} (drawn : Draft.AreDrawn plan drafts)
    (distinct : (drafts.map (·.id)).Nodup) {ring : Ring} {settings : Settings}
    {state : Compilation × List Draft}
    (run : drafts.foldlM add ({ ring, settings }, []) = .ok state) : AreNested drafts state.1 := by
  refine foldlM_keeps_prefix (fun before state => AreNested before state.1) ?_ ⟨rfl, nofun⟩ run
  intro before draft later state after whole nested added
  refine areNested_add (not_mem_of_nodup distinct whole) ?_ nested added
  intro other member id reads
  rw [Draft.mem_subplanSources] at reads
  rcases List.mem_append.mp member with isEarlier | last
  · obtain ⟨front, back, rfl⟩ := List.append_of_mem isEarlier
    have known := (drawn front other (back ++ draft :: later) (by rw [whole]; simp)).sources id reads
    rw [List.map_append]
    exact List.mem_append_left _ known
  · cases List.mem_singleton.mp last
    exact (drawn before draft later whole).sources id reads

end Compilation

namespace Compilation.AreNested

variable {drafts : List Draft} {last : Draft} {compilation : Compilation} {select : Select}

/-- All queries occur within the query of the draft that the others end in. -/
theorem isPart_of_mem (nested : AreNested drafts compilation) (ends : Draft.EndIn drafts last)
    (found : compilation.queries.get? last.id = some select) {draft : Draft} (member : draft ∈ drafts)
    {query : Select} (isQuery : compilation.queries.get? draft.id = some query) :
    query.IsPart select := by
  -- The induction is on how far the number of the draft is from the largest one.
  induction left : last.id.number - draft.id.number using Nat.strongRecOn
    generalizing draft query with
  | _ left ih =>
      by_cases isLast : draft.id = last.id
      · rw [isLast, found] at isQuery
        cases isQuery
        exact .refl
      · obtain ⟨reader, isReader, isSource⟩ := ends.read draft member isLast
        obtain ⟨outer, isOuter, readsAs_iff⟩ := nested.queries reader isReader
        have outerPart : outer.IsPart select := by
          refine ih (last.id.number - reader.id.number) ?_ isReader isOuter rfl
          obtain ⟨-, -, -, less⟩ := ends.sources reader isReader draft.id isSource
          have most := ends.greatest reader isReader
          omega
        have readsAs : outer.ReadsAs draft.id.text query :=
          (readsAs_iff _ _).mpr ⟨draft.id, isSource, rfl, isQuery⟩
        exact outerPart.tail (Select.reads_iff.mpr ⟨_, readsAs⟩)

/-- What occurs within the query of a draft are queries of drafts. -/
theorem exists_draft_of_isPart (nested : AreNested drafts compilation)
    (ends : Draft.EndIn drafts last) (found : compilation.queries.get? last.id = some select)
    {part : Select} (isPart : part.IsPart select) :
    ∃ draft ∈ drafts, compilation.queries.get? draft.id = some part := by
  induction isPart with
  | refl => exact ⟨last, ends.member, found⟩
  | tail _ reads ih =>
      obtain ⟨reader, isReader, isQuery⟩ := ih
      obtain ⟨query, sameQuery, readsAs_iff⟩ := nested.queries reader isReader
      cases isQuery.symm.trans sameQuery
      obtain ⟨label, readsAs⟩ := Select.reads_iff.mp reads
      obtain ⟨id, isSource, -, isInner⟩ := (readsAs_iff label _).mp readsAs
      obtain ⟨other, isOther, rfl, -⟩ := ends.sources reader isReader id isSource
      exact ⟨other, isOther, isInner⟩

/-- Every other query is read within the last one, under the name of its subplan. -/
theorem exists_part_of_mem (nested : AreNested drafts compilation) (ends : Draft.EndIn drafts last)
    (found : compilation.queries.get? last.id = some select) {draft : Draft} (member : draft ∈ drafts)
    (inner : draft.id ≠ last.id) :
    ∃ query, compilation.queries.get? draft.id = some query ∧
      ∃ part : Select, part.IsPart select ∧ part.ReadsAs draft.id.text query := by
  obtain ⟨query, isQuery, -⟩ := nested.queries draft member
  obtain ⟨reader, isReader, isSource⟩ := ends.read draft member inner
  obtain ⟨outer, isOuter, readsAs_iff⟩ := nested.queries reader isReader
  exact ⟨query, isQuery, outer, nested.isPart_of_mem ends found isReader isOuter,
    (readsAs_iff _ _).mpr ⟨draft.id, isSource, rfl, isQuery⟩⟩

/-- Whatever is read within the last query is another query, under the name of its subplan. -/
theorem exists_draft_of_readsAs (nested : AreNested drafts compilation)
    (ends : Draft.EndIn drafts last) (found : compilation.queries.get? last.id = some select)
    {part inner : Select} (isPart : part.IsPart select) {label : String}
    (readsAs : part.ReadsAs label inner) :
    ∃ draft ∈ drafts, draft.id ≠ last.id ∧ label = draft.id.text ∧
      compilation.queries.get? draft.id = some inner := by
  obtain ⟨reader, isReader, isQuery⟩ := nested.exists_draft_of_isPart ends found isPart
  obtain ⟨query, sameQuery, readsAs_iff⟩ := nested.queries reader isReader
  cases isQuery.symm.trans sameQuery
  obtain ⟨id, isSource, isLabel, isInner⟩ := (readsAs_iff label inner).mp readsAs
  obtain ⟨draft, member, rfl, less⟩ := ends.sources reader isReader id isSource
  refine ⟨draft, member, ?_, isLabel, isInner⟩
  intro isLast
  rw [isLast] at less
  exact absurd less (Nat.not_lt_of_le (ends.greatest reader isReader))

end Compilation.AreNested

/-- The query of all drafts is that of the last one, compiled after the others. -/
theorem exists_last_query_of_resolveDrafts {plan : Plan} {front : List Draft} {last : Draft}
    (drawn : Draft.AreDrawn plan (front ++ [last])) (distinct : ((front ++ [last]).map (·.id)).Nodup)
    {ring : Ring} {settings : Settings} {resolution : Resolution}
    (resolves : resolveDrafts ring settings (front ++ [last]) = .ok resolution) :
    ∃ (compilation after : Compilation) (others : List Draft) (draft : Draft),
      front.foldlM Compilation.add ({ ring, settings }, []) = .ok (compilation, others) ∧
      compilation.query last = .ok (resolution.select, draft) ∧
      resolution.drafts = others ++ [draft] ∧
      Compilation.AreNested (front ++ [last]) after ∧
      after.queries = compilation.queries.put last.id resolution.select := by
  obtain ⟨⟨after, resolved⟩, run, found⟩ := bind_eq_ok_iff.mp resolves
  have nested := Compilation.areNested_of_foldlM drawn distinct run
  rw [List.foldlM_append, bind_eq_ok_iff] at run
  obtain ⟨⟨compilation, others⟩, runFront, runLast⟩ := run
  rw [List.foldlM_cons, bind_eq_ok_iff] at runLast
  obtain ⟨final, added, same⟩ := runLast
  cases same
  obtain ⟨⟨select, draft⟩, compiled, same⟩ := bind_eq_ok_iff.mp added
  cases same
  have drawnFront : Draft.AreDrawn plan front := fun before other later whole =>
    drawn before other (later ++ [last]) (by rw [whole, List.append_assoc, List.cons_append])
  rw [List.map_append, List.nodup_append'] at distinct
  have nestedFront := Compilation.areNested_of_foldlM drawnFront distinct.1 runFront
  have fresh : last.id ∉ compilation.queries.map (·.1) := by
    rw [nestedFront.keys]
    exact fun member => distinct.2.2 member (List.mem_map_of_mem List.mem_cons_self)
  dsimp only at found
  rw [Entries.put_of_not_mem fresh, List.getLast?_concat] at found
  cases found
  exact ⟨compilation, _, others, draft, runFront, compiled, rfl, nested, rfl⟩

/-! ## Compiled plans -/

namespace Compiled

variable {compiled : Compiled} {draft : Draft}

theorem outermost_eq_ok {others : List Draft} (drafts : compiled.drafts = others ++ [draft]) :
    compiled.outermost = .ok draft := by
  rw [outermost, drafts, List.getLast?_concat]

/-- A result is labelled with the columns of the outermost draft and their units. -/
theorem length_units_of_run (isOutermost : compiled.outermost = .ok draft) {ring : Ring}
    {session : Session} {result : QueryResult} (ran : compiled.run ring session = .ok result) :
    result.columnNames = draft.select ∧ result.units.length = draft.select.length := by
  obtain ⟨rows, -, ran⟩ := bind_eq_ok_iff.mp ran
  rw [isOutermost] at ran
  cases ran
  exact ⟨rfl, List.length_map _⟩

end Compiled

/-- The query of a compiled plan is that of its outermost subplan, whose draft is given, and those of all
other subplans are read within it. -/
structure Compiled.IsNested (compiled : Compiled) (compilation : Compilation) (draft : Draft) :
    Prop where
  outermost : compiled.outermost = .ok draft
  id : draft.id = compiled.plan.outermost
  /-- The outermost subplan comes last, and its root is the terminal step. -/
  root : ∃ front final, compiled.plan.subplans = front ++ [final] ∧
    final.id = compiled.plan.outermost ∧ final.root = compiled.plan.terminal
  statement : compiled.statement = compiled.select.emit compiled.dialect
  columns : compiled.select.columns.map (·.2) = draft.select
  /-- Results have the columns of the query and a unit for each. -/
  results : ∀ ring session result, compiled.run ring session = .ok result →
    result.columnNames = compiled.select.columns.map (·.2) ∧
      result.units.length = result.columnNames.length
  /-- Every other subplan has a query, which is read under the name of the subplan. -/
  every : ∀ subplan ∈ compiled.plan.subplans, subplan.id ≠ compiled.plan.outermost →
    ∃ inner, compilation.queries.get? subplan.id = some inner ∧
      ∃ part : Select, part.IsPart compiled.select ∧ part.ReadsAs subplan.id.text inner
  /-- Only queries of other subplans are read, and under no other names. -/
  only : ∀ part : Select, part.IsPart compiled.select → ∀ label inner, part.ReadsAs label inner →
    ∃ subplan ∈ compiled.plan.subplans, subplan.id ≠ compiled.plan.outermost ∧
      label = subplan.id.text ∧ compilation.queries.get? subplan.id = some inner

/-- All notions of the outermost subplan agree, and no subplan is lost: the last draft is that of the
subplan of the terminal step, the query is compiled from it after all others, and the queries of the
others, and only these, are derived tables within it. -/
theorem compile_isNested {raw : Entries String String} {ring : Ring} {settings : Settings}
    {compiled : Compiled} (compiles : compile raw ring settings = .ok compiled) :
    ∃ (front others : List Draft) (last draft : Draft) (compilation : Compilation),
      compiled.plan.drafts = .ok (front ++ [last]) ∧
      front.foldlM Compilation.add ({ ring, settings }, []) = .ok (compilation, others) ∧
      compilation.query last = .ok (compiled.select, draft) ∧
      compiled.drafts = others ++ [draft] ∧ compiled.IsNested compilation draft := by
  obtain ⟨plan, parsed, compiles⟩ := bind_eq_ok_iff.mp compiles
  obtain ⟨drafts, drafted, compiles⟩ := bind_eq_ok_iff.mp compiles
  obtain ⟨resolution, resolves, same⟩ := bind_eq_ok_iff.mp compiles
  have divided := Plan.isDivided_of_parse parsed
  have ids := (divided.isSourced_of_drafts drafted).1
  obtain ⟨front, last, rfl, outermost, ends⟩ := Plan.exists_endIn_of_drafts parsed drafted
  obtain ⟨compilation, after, others, draft, runFront, compiledLast, resolved, nested, queries⟩ :=
    exists_last_query_of_resolveDrafts (Plan.areDrawn_of_drafts drafted) (divided.nodup_drafts drafted)
      resolves
  have found : after.queries.get? last.id = some resolution.select := by
    rw [queries, Entries.get?_put, if_pos rfl]
  have kept {id : SubplanId} (inner : id ≠ last.id) :
      after.queries.get? id = compilation.queries.get? id := by
    rw [queries, Entries.get?_put, if_neg (Ne.symm inner)]
  have resolvedLast := (Compilation.isQuery_of_query compiledLast).resolved_eq
  have columns : resolution.select.columns.map (·.2) = draft.select := by
    rw [(Compilation.evaluates_of_query compiledLast).names, resolvedLast]
  have lastId : draft.id = plan.outermost := by rw [resolvedLast, ← outermost]
  cases same
  refine ⟨front, others, last, draft, compilation, drafted, runFront, compiledLast, resolved,
    Compiled.outermost_eq_ok resolved, lastId, Plan.exists_outermost parsed, rfl, columns, ?_, ?_, ?_⟩
  · intro ring session result ran
    obtain ⟨names, units⟩ := Compiled.length_units_of_run (Compiled.outermost_eq_ok resolved) ran
    exact ⟨names.trans columns.symm, by rw [units, names]⟩
  · intro subplan listed inner
    have isId : subplan.id ∈ (front ++ [last]).map (·.id) := ids ▸ List.mem_map_of_mem listed
    obtain ⟨own, member, sameId⟩ := List.mem_map.mp isId
    rw [← sameId] at inner ⊢
    rw [← kept (outermost ▸ inner)]
    exact nested.exists_part_of_mem ends found member (outermost ▸ inner)
  · intro part isPart label query readsAs
    obtain ⟨own, member, inner, isLabel, isQuery⟩ :=
      nested.exists_draft_of_readsAs ends found isPart readsAs
    have isId : own.id ∈ plan.subplans.map (·.id) := ids ▸ List.mem_map_of_mem member
    obtain ⟨subplan, listed, sameId⟩ := List.mem_map.mp isId
    rw [kept inner] at isQuery
    rw [← sameId] at inner isLabel isQuery
    exact ⟨subplan, listed, outermost ▸ inner, isLabel, isQuery⟩

def averageAboveAverage : Entries String String :=
  [("|1|", "(retrieve_entity Employee)"), ("|2|", "(retrieve_attribute |1| salary)"),
    ("|3|", "(average |2|)"), ("|4|", "(collect |3|)"), ("|5|", "(return |4|)"),
    ("|6|", "(retrieve_entity Employee)"), ("|7|", "(retrieve_attribute |6| salary)"),
    ("|8|", "(retrieve_attribute |5| |3|)"), ("|9|", "(greaterthan |7| |8|)"),
    ("|10|", "(collect |7|)"), ("|11|", "(return |10| |9|)"),
    ("|12|", "(retrieve_attribute |11| |7|)"), ("|13|", "(average |12|)"),
    ("|14|", "(collect |13|)"), ("|15|", "(return |14|)")]

/-- Here a query is read by one that is read in turn. -/
theorem compile_isNested_averageAboveAverage :
    ∃ ring compiled front others last draft compilation,
      Ring.ofDocument (staffDocument "employee_badge") = .ok ring ∧
      compile averageAboveAverage ring {} = .ok compiled ∧
      compiled.plan.subplans.map (·.id.text) = ["alias_0", "alias_1", "alias_2"] ∧
      compiled.plan.drafts = .ok (front ++ [last]) ∧
      front.foldlM Compilation.add (⟨ring, {}, [], []⟩, []) = .ok (compilation, others) ∧
      compilation.query last = .ok (compiled.select, draft) ∧
      compiled.drafts = others ++ [draft] ∧ compiled.IsNested compilation draft := by
  have runs : (Ring.ofDocument (staffDocument "employee_badge") >>= fun ring =>
      (compile averageAboveAverage ring {}).map fun compiled =>
        compiled.plan.subplans.map (·.id.text)) = .ok ["alias_0", "alias_1", "alias_2"] := by
    decide +kernel
  obtain ⟨ring, loads, runs⟩ := bind_eq_ok_iff.mp runs
  obtain ⟨compiled, compiles, names⟩ := map_eq_ok_iff.mp runs
  obtain ⟨front, others, last, draft, compilation, nests⟩ := compile_isNested compiles
  exact ⟨ring, compiled, front, others, last, draft, compilation, loads, compiles, names, nests⟩

end SemanticQuery
