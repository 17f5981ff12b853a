import SemanticQuery.Plan.Parse
import SemanticQuery.Proofs.Draft.Drawn

/-!
# The provenance of handles

A column of another subplan that occurs in a handle of a draft is one that an earlier draft returns,
with the handle that is evaluated there under its name.  An expression that occurs is one that a step
of the same subplan is noted for, and the step applies the same operation.
-/

namespace SemanticQuery

/-! ## Handles -/

namespace Handle

/-- Where a handle comes from, apart from its operands: an entity, an earlier draft that is a source,
or a step that the draft notes. -/
def HasOrigin (built : List Draft) (draft : Draft) : Handle → Prop
  | .field .. => True
  | .column id name origin => .subplan id ∈ draft.sources ∧ ∃ other ∈ built, other.id = id ∧
      name ∈ other.select ∧ other.fields.get? name = some origin
  | .expression operation operands =>
      (draft.origins.get? (.expression operation operands)).isSome = true

def IsTraced (built : List Draft) (draft : Draft) (handle : Handle) : Prop :=
  ∀ inner : Handle, inner.Occurs handle → inner.HasOrigin built draft

theorem IsTraced.mono {built : List Draft} {draft result : Draft} {handle : Handle}
    (traced : handle.IsTraced built draft) (sources : draft.sources ⊆ result.sources)
    (origins : ∀ other, (draft.origins.get? other).isSome = true →
      (result.origins.get? other).isSome = true) : handle.IsTraced built result := by
  intro inner occurs
  have hasOrigin := traced inner occurs
  cases inner with
  | field => trivial
  | column => exact ⟨sources hasOrigin.1, hasOrigin.2⟩
  | expression => exact origins _ hasOrigin

end Handle

/-! ## Drafts -/

namespace Draft

/-- Each noted step is one of the subplan, and what it is noted for is an expression of its operation. -/
def NotesSteps (plan : Plan) (subplan : Subplan) (draft : Draft) : Prop :=
  ∀ handle reference, draft.origins.get? handle = some reference →
    ∃ step operands, plan.step? reference = some step ∧ subplan.has reference = true ∧
      handle = .expression step.operation operands

/-- Columns are evaluated under their own names, each once, and none is returned or grouped by twice. -/
structure IsTidy (draft : Draft) : Prop where
  named : ∀ entry ∈ draft.fields, entry.1 = entry.2.columnName
  distinct : (draft.fields.map (·.1)).Nodup
  select : draft.select.Nodup
  groupBy : draft.groupBy.Nodup

variable {plan : Plan} {built : List Draft} {subplan : Subplan} {findings after : Findings}
  {draft result : Draft} {step : Step} {held : Handle → Prop}

theorem Edits.notesSteps (edits : Edits held step draft result) (belongs : plan.Belongs subplan step)
    (notes : draft.NotesSteps plan subplan) : result.NotesSteps plan subplan := by
  cases edits with
  | origin operands =>
      intro handle reference noted
      rw [addOrigin, Entries.get?_putNew] at noted
      rcases Option.or_eq_some_iff.mp noted with earlier | ⟨-, last⟩
      · exact notes handle reference earlier
      · split at last
        · rename_i same
          cases last
          exact ⟨step, operands, belongs.found, belongs.holds, same.symm⟩
        · cases last
  | placed _ places => rwa [NotesSteps, places.origins_eq]
  | _ => exact notes

theorem AddsField.isTidy {handle : Handle} (adds : AddsField draft handle result)
    (tidy : draft.IsTidy) (select : result.select.Nodup) (groupBy : result.groupBy.Nodup) :
    result.IsTidy := by
  refine ⟨?_, ?_, select, groupBy⟩
  · intro entry member
    rw [adds.fields] at member
    rcases Entries.mem_of_mem_putNew member with earlier | rfl
    · exact tidy.named entry earlier
    · rfl
  · rw [adds.fields]
    exact Entries.nodup_putNew tidy.distinct

theorem Edits.isTidy (edits : Edits held step draft result) (tidy : draft.IsTidy) :
    result.IsTidy := by
  cases edits with
  | source | origin | limited => exact ⟨tidy.named, tidy.distinct, tidy.select, tidy.groupBy⟩
  | returned =>
      exact (draft.addsField_returnField _).isTidy tidy (nodup_addNew tidy.select) tidy.groupBy
  | grouped =>
      exact (draft.addsField_groupByField _).isTidy tidy tidy.select (nodup_addNew tidy.groupBy)
  | sorted => exact (draft.addsField_sortByField _).isTidy tidy tidy.select tidy.groupBy
  | placed _ places =>
      cases places <;> exact ⟨tidy.named, tidy.distinct, tidy.select, tidy.groupBy⟩

/-! ## Visits -/

/-- A handle that a visit makes is traced if those that were held are. -/
theorem Makes.isTraced {handle : Handle} (makes : Makes built subplan findings step result handle)
    (known : ∀ other, findings.Holds subplan other → other.IsTraced built result) :
    handle.IsTraced built result := by
  cases makes with
  | field => exact Handle.forall_occurs trivial nofun
  | column member exposed stored listed =>
      exact Handle.forall_occurs ⟨listed, _, member, rfl, exposed, stored⟩ nofun
  | expression each noted =>
      exact Handle.forall_occurs noted fun operand isOperand => known operand (each operand isOperand)

structure IsTracing (plan : Plan) (subplan : Subplan) (visited : List Subplan) (built : List Draft)
    (findings : Findings) (draft : Draft) : Prop where
  building : IsBuilding plan subplan visited findings draft
  known : ∀ handle, findings.Holds subplan handle → handle.IsTraced built draft
  evaluated : ∀ handle ∈ draft.handles, handle.IsTraced built draft
  notes : draft.NotesSteps plan subplan
  tidy : draft.IsTidy

theorem Visits.isTracing {visited : List Subplan}
    (visits : Visits plan built subplan findings draft step after result)
    (belongs : plan.Belongs subplan step) (member : subplan ∈ visited)
    (tracing : IsTracing plan subplan visited built findings draft) :
    IsTracing plan subplan visited built after result := by
  have inner := tracing.building.inner
  have grown {handle : Handle} (traced : handle.IsTraced built draft) :
      handle.IsTraced built result :=
    traced.mono visits.subset_sources fun other => visits.isSome_get?_origins inner belongs
  obtain ⟨known, evaluated⟩ := visits.holds_of_each inner belongs (Handle.IsTraced built result)
    (fun handle held => grown (tracing.known handle held))
    (fun handle makes => makes.isTraced fun other held => grown (tracing.known other held))
    (fun handle member => grown (tracing.evaluated handle member))
  have edits := visits.edits inner belongs
  exact ⟨visits.isBuilding belongs member tracing.building, known, evaluated,
    keeps_of_edits (NotesSteps plan subplan) (fun _ _ edit => edit.notesSteps belongs) edits
      tracing.notes,
    keeps_of_edits IsTidy (fun _ _ edit => edit.isTidy) edits tracing.tidy⟩

/-! ## Runs -/

/-- Where the handles of a draft come from that is built after others. -/
structure IsTraced (plan : Plan) (built : List Draft) (draft : Draft) : Prop where
  evaluated : ∀ handle ∈ draft.handles, handle.IsTraced built draft
  notes : ∃ subplan ∈ plan.subplans, subplan.id = draft.id ∧ draft.NotesSteps plan subplan
  tidy : draft.IsTidy

def AreTraced (plan : Plan) (drafts : List Draft) : Prop :=
  ∀ before draft later, drafts = before ++ draft :: later → draft.IsTraced plan before

theorem areTraced_buildNext {before later : List Subplan} {state after : Findings × List Draft}
    (divided : plan.IsDivided) (whole : plan.subplans = before ++ subplan :: later)
    (isBuilt : IsBuilt plan before state) (traced : AreTraced plan state.2)
    (built : buildNext plan state subplan = .ok after) : AreTraced plan after.2 := by
  have listed : subplan ∈ plan.subplans := by simp [whole]
  have unknown (reference : StepRef) (holds : subplan.has reference = true) :
      ¬ state.1.Knows reference :=
    isBuilt.within.not_knows divided whole isBuilt.inner holds
  have start : IsTracing plan subplan (before ++ [subplan]) state.2 state.1 { id := subplan.id } :=
    ⟨isBuilt.isBuilding divided whole, fun _ held => (Findings.not_holds unknown held).elim, nofun,
      nofun, ⟨nofun, List.nodup_nil, List.nodup_nil, List.nodup_nil⟩⟩
  obtain ⟨draft, drafts, tracing⟩ := buildNext_keeps_of_has
    (IsTracing plan subplan (before ++ [subplan]) state.2)
    (fun findings draft step after result found holds visits tracing =>
      visits.isTracing ⟨divided, listed, found, holds⟩ (by simp) tracing) start built
  have last : draft.IsTraced plan state.2 :=
    ⟨tracing.evaluated, ⟨subplan, listed, tracing.building.id.symm, tracing.notes⟩, tracing.tidy⟩
  rw [drafts]
  exact fun _ _ _ split => forall_split_concat traced last split

end Draft

/-- The drafts of a plan are traced, each to those before it. -/
theorem Plan.IsDivided.areTraced_of_drafts {plan : Plan} (divided : plan.IsDivided)
    {drafts : List Draft} (drafted : plan.drafts = .ok drafts) : Draft.AreTraced plan drafts := by
  obtain ⟨⟨findings, built⟩, run, rfl⟩ := map_eq_ok_iff.mp drafted
  have start : Draft.IsBuilt plan [] ({}, []) ∧ Draft.AreTraced plan [] :=
    ⟨Draft.isBuilt_nil plan, fun before draft later whole => by simp at whole⟩
  have both := foldlM_keeps_prefix
    (fun before state => Draft.IsBuilt plan before state ∧ Draft.AreTraced plan state.2)
    (fun before subplan later state after whole holds built =>
      ⟨Draft.isBuilt_buildNext divided whole holds.1 built,
        Draft.areTraced_buildNext divided whole holds.1 holds.2 built⟩) start run
  exact both.2

/-! ## Well-formed drafts -/

/-- A draft makes sense after those before it. -/
structure Draft.IsWellFormed (before : List Draft) (draft : Draft) : Prop where
  select : draft.select.Nodup
  groupBy : draft.groupBy.Nodup
  sources : draft.sources.Nodup
  /-- The columns that are evaluated are told apart by their names. -/
  fields : (draft.fields.map (·.1)).Nodup ∧ ∀ entry ∈ draft.fields, entry.1 = entry.2.columnName
  /-- The columns that are returned, grouped by or sorted by are evaluated. -/
  columns : (∀ name ∈ draft.select, name ∈ draft.fields.map (·.1)) ∧
    (∀ name ∈ draft.groupBy, name ∈ draft.fields.map (·.1)) ∧
    ∀ key ∈ draft.sort, key.column ∈ draft.fields.map (·.1)
  /-- The subplans that are read have been drafted before, under smaller numbers. -/
  earlier : ∀ id, .subplan id ∈ draft.sources →
    ∃ other ∈ before, other.id = id ∧ id.number < draft.id.number
  /-- A column of another subplan is one that this returns, with the handle that it evaluates there. -/
  exposed : ∀ handle ∈ draft.handles, ∀ id name origin,
    (Handle.column id name origin).Occurs handle →
      .subplan id ∈ draft.sources ∧ name = origin.columnName ∧
        ∃ other ∈ before, other.id = id ∧ name ∈ other.select ∧
          other.fields.get? name = some origin

/-- The drafts of a plan that was read are well formed, each after those before it. -/
theorem Plan.isWellFormed_of_drafts {raw : Entries String String} {plan : Plan} {drafts : List Draft}
    (parsed : Plan.parse raw = .ok plan) (drafted : plan.drafts = .ok drafts)
    {before later : List Draft} {draft : Draft} (whole : drafts = before ++ draft :: later) :
    draft.IsWellFormed before := by
  have divided := isDivided_of_parse parsed
  have listed : draft ∈ drafts := by simp [whole]
  have traced := divided.areTraced_of_drafts drafted
  have drawn := areDrawn_of_drafts drafted before draft later whole
  obtain ⟨evaluated, -, tidy⟩ := traced before draft later whole
  have less : ∀ other ∈ before, other.id.number < draft.id.number := by
    have increasing := divided.increasing_drafts drafted
    rw [whole, List.pairwise_append] at increasing
    exact fun other member => increasing.2.2 other member draft List.mem_cons_self
  refine ⟨tidy.select, tidy.groupBy, ((divided.isSourced_of_drafts drafted).2 draft listed).distinct,
    ⟨tidy.distinct, tidy.named⟩, ⟨?_, ?_, ?_⟩, ?_, ?_⟩
  · intro name member
    exact drawn.columns name (by simp [Draft.usedColumns, member])
  · intro name member
    exact drawn.columns name (by simp [Draft.usedColumns, member])
  · intro key member
    exact drawn.columns key.column (by simp [Draft.usedColumns, List.mem_map_of_mem member])
  · intro id reads
    obtain ⟨other, member, rfl⟩ := List.mem_map.mp (drawn.sources id reads)
    exact ⟨other, member, rfl, less other member⟩
  · intro handle member id name origin occurs
    obtain ⟨reads, other, isEarlier, isOther, exposed, stored⟩ := evaluated handle member _ occurs
    refine ⟨reads, ?_, other, isEarlier, isOther, exposed, stored⟩
    obtain ⟨front, rest, split⟩ := List.append_of_mem isEarlier
    have otherTidy := (traced front other (rest ++ draft :: later) (by simp [whole, split])).tidy
    exact otherTidy.named _ (Entries.mem_of_get? stored)

/-- The teams with a high average salary, highest first, where the average of each is drawn from a
query that groups by team. -/
def highTeams : Entries String String :=
  [("|1|", "(retrieve_entity Employee)"), ("|2|", "(retrieve_attribute |1| salary)"),
    ("|3|", "(retrieve_attribute |1| team)"), ("|4|", "(groupby |3|)"),
    ("|5|", "(average |2| |4|)"), ("|6|", "(collect |3| |5| |3|)"), ("|7|", "(return |6|)"),
    ("|8|", "(retrieve_attribute |7| team)"), ("|9|", "(retrieve_attribute |7| |5|)"),
    ("|10|", "(greaterthan |9| 100)"), ("|11|", "(sort |9| desc)"), ("|12|", "(collect |8|)"),
    ("|13|", "(return |12| |10| |11|)")]

/-- The outer draft of this plan reads columns of the inner one, by the end of a name and by a step. -/
theorem Plan.isWellFormed_of_drafts_highTeams :
    ∃ plan inner outer, parse highTeams = .ok plan ∧ plan.drafts = .ok [inner, outer] ∧
      inner.select = ["Employee//team", "average(Employee//salary)"] ∧
      inner.groupBy = ["Employee//team"] ∧ outer.sources = [.subplan inner.id] ∧
      outer.sort = [⟨"alias_0//average(Employee//salary)", .descending⟩] ∧
      inner.IsWellFormed [] ∧ outer.IsWellFormed [inner] := by
  have runs : (parse highTeams >>= fun plan => plan.drafts.map fun drafts =>
      decide (drafts.map (·.id) = [⟨0⟩, ⟨1⟩] ∧
        drafts.map (·.select) =
          [["Employee//team", "average(Employee//salary)"], ["alias_0//Employee//team"]] ∧
        drafts.map (·.groupBy) = [["Employee//team"], []] ∧
        drafts.map (·.sources) = [[.entity "Employee"], [.subplan ⟨0⟩]] ∧
        drafts.map (·.sort) = [[], [⟨"alias_0//average(Employee//salary)", .descending⟩]])) =
      .ok true := by
    decide +kernel
  obtain ⟨plan, parsed, runs⟩ := bind_eq_ok_iff.mp runs
  obtain ⟨drafts, drafted, parts⟩ := map_eq_ok_iff.mp runs
  obtain ⟨ids, select, groupBy, sources, sort⟩ := of_decide_eq_true parts
  obtain ⟨inner, others, rfl, first, ids⟩ := List.map_eq_cons_iff.mp ids
  obtain ⟨outer, none, rfl, -, ids⟩ := List.map_eq_cons_iff.mp ids
  cases List.map_eq_nil_iff.mp ids
  simp only [List.map_cons, List.map_nil, List.cons.injEq, and_true] at select groupBy sources sort
  exact ⟨plan, inner, outer, parsed, drafted, select.1, groupBy.1, first ▸ sources.2, sort.2,
    isWellFormed_of_drafts parsed drafted (List.nil_append _).symm,
    isWellFormed_of_drafts parsed drafted List.singleton_append.symm⟩

end SemanticQuery
