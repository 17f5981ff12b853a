import SemanticQuery.Proofs.Draft.Holdings
import SemanticQuery.Proofs.Draft.Registration
import SemanticQuery.Proofs.Handle.Analysis

/-!
# The sources of drafts

Every attribute and every column in the handles of a draft is read from one of its sources.  Handles
are found by visits to the steps of the same subplan: no step refers to a step of another subplan
but to its return step, and return steps have no handles.
-/

namespace SemanticQuery

/-! ## Handles -/

namespace Handle

def source? : Handle → Option Source
  | .field entity _ => some (.entity entity)
  | .column subplan _ _ => some (.subplan subplan)
  | .expression .. => none

/-- A handle occurs in another one, which may be itself; the origins of columns do not count. -/
def Occurs (inner handle : Handle) : Prop :=
  Relation.ReflTransGen IsOperand inner handle

def IsSourced (sources : List Source) (handle : Handle) : Prop :=
  ∀ inner : Handle, inner.Occurs handle → ∀ source ∈ inner.source?, source ∈ sources

variable {sources more : List Source} {handle : Handle}

theorem IsSourced.mono (sourced : handle.IsSourced sources) (grown : sources ⊆ more) :
    handle.IsSourced more :=
  fun inner occurs source reads => grown (sourced inner occurs source reads)

/-- What holds of a handle and of all that occurs in its operands holds of all that occurs in it. -/
theorem forall_occurs {property : Handle → Prop} (itself : property handle)
    (operands : ∀ operand, IsOperand operand handle →
      ∀ inner : Handle, inner.Occurs operand → property inner) :
    ∀ inner : Handle, inner.Occurs handle → property inner := by
  intro inner occurs
  rcases Relation.ReflTransGen.cases_tail occurs with rfl | ⟨operand, path, last⟩
  · exact itself
  · exact operands operand last inner path

theorem isSourced_field {entity : String} (member : .entity entity ∈ sources) (name : String) :
    (Handle.field entity name).IsSourced sources :=
  forall_occurs (by rintro _ ⟨⟩; exact member) nofun

theorem isSourced_column {subplan : SubplanId} (member : .subplan subplan ∈ sources)
    (name : String) (origin : Handle) : (Handle.column subplan name origin).IsSourced sources :=
  forall_occurs (by rintro _ ⟨⟩; exact member) nofun

theorem isSourced_expression (operation : Operation) {operands : List Operand}
    (each : ∀ inner, .handle inner ∈ operands → inner.IsSourced sources) :
    (Handle.expression operation operands).IsSourced sources :=
  forall_occurs nofun each

end Handle

/-! ## Findings -/

namespace Findings

structure AreSourced (subplan : Subplan) (sources : List Source) (findings : Findings) : Prop where
  handles : ∀ reference handle, findings.handles.get? reference = some handle →
    subplan.has reference = true → handle.IsSourced sources
  entities : ∀ reference entity, findings.entities.get? reference = some entity →
    subplan.has reference = true → .entity entity ∈ sources
  sorts : ∀ reference pairs, findings.sorts.get? reference = some pairs →
    subplan.has reference = true → ∀ pair ∈ pairs, pair.1.IsSourced sources

variable {subplan : Subplan} {sources : List Source} {findings : Findings}

theorem AreSourced.isSourced_of_holds (sourced : findings.AreSourced subplan sources) {handle : Handle}
    (held : findings.Holds subplan handle) : handle.IsSourced sources := by
  rcases held with ⟨found, holds⟩ | ⟨found, holds, member, rfl⟩
  · exact sourced.handles _ handle found holds
  · exact sourced.sorts _ _ found holds _ member

theorem areSourced_of_holds
    (handles : ∀ handle, findings.Holds subplan handle → handle.IsSourced sources)
    (entities : ∀ reference entity, findings.entities.get? reference = some entity →
      subplan.has reference = true → .entity entity ∈ sources) :
    findings.AreSourced subplan sources where
  handles := fun _ handle found holds => handles handle (.step found holds)
  entities := entities
  sorts := fun _ _ found holds pair member => handles pair.1 (.key found holds member rfl)

end Findings

/-! ## Drafts -/

namespace Draft

/-- The handles of a draft read from its sources, and no source is listed twice. -/
structure IsSourced (draft : Draft) : Prop where
  handles : ∀ handle ∈ draft.handles, handle.IsSourced draft.sources
  distinct : draft.sources.Nodup

variable {plan : Plan} {built : List Draft} {subplan : Subplan} {findings : Findings}
  {draft result : Draft} {step : Step} {handle : Handle}

theorem mem_subplanSources {id : SubplanId} :
    id ∈ draft.subplanSources ↔ .subplan id ∈ draft.sources := by
  unfold subplanSources
  rw [List.mem_filterMap]
  constructor
  · rintro ⟨source, member, isSubplan⟩
    cases source with
    | entity name => cases isSubplan
    | subplan other =>
        cases isSubplan
        exact member
  · intro member
    exact ⟨_, member, rfl⟩

theorem subset_addSource (draft : Draft) (source : Source) :
    draft.sources ⊆ (draft.addSource source).sources :=
  fun _ member => mem_addNew.mpr (.inl member)

theorem sources_foldl {α : Type} (change : Draft → α → Draft)
    (keeps : ∀ draft item, (change draft item).sources = draft.sources) (items : List α)
    (draft : Draft) : (items.foldl change draft).sources = draft.sources :=
  List.foldlRecOn (motive := fun result => result.sources = draft.sources) items change rfl
    fun before same item _ => (keeps before item).trans same

theorem sources_of_addClause {target : StepRef}
    (added : addClause plan findings step draft target = .ok result) :
    result.sources = draft.sources := by
  obtain ⟨clause, -, -, takes⟩ := exists_takesClause added
  cases takes with
  | predicate _ _ places => exact places.sources_eq
  | sort => exact sources_foldl sortByField (fun _ _ => rfl) _ draft
  | limit => rfl

/-- A return step adds no sources. -/
theorem sources_of_addReturn (returned : draft.addReturn plan findings step = .ok result) :
    result.sources = draft.sources := by
  obtain ⟨_, _, _, handles, -, -, -, run⟩ := exists_of_addReturn returned
  exact foldlM_keeps_of_mem (fun after : Draft => after.sources = draft.sources)
    (fun before target member after same added => (sources_of_addClause added).trans same)
    (sources_foldl returnField (fun _ _ => rfl) handles draft) run

/-! ## Visits -/

theorem Visits.subset_sources {after : Findings}
    (visits : Visits plan built subplan findings draft step after result) :
    draft.sources ⊆ result.sources := by
  cases visits with
  | entity => exact draft.subset_addSource _
  | retrieval _ read =>
      rcases eq_of_retrieve read with rfl | ⟨source, rfl⟩
      · exact List.Subset.refl _
      · exact draft.subset_addSource source
  | operation | analysis | rowNumber | sort | limit | collect | inner => exact List.Subset.refl _
  | groupBy =>
      rw [sources_foldl groupByField fun _ _ => rfl]
      exact List.Subset.refl _
  | root _ _ returned =>
      rw [sources_of_addReturn returned]
      exact List.Subset.refl _

/-- The entities that are known after a visit were known before or are sources. -/
theorem Visits.entities_cases {after : Findings}
    (visits : Visits plan built subplan findings draft step after result) {reference : StepRef}
    {entity : String} (known : after.entities.get? reference = some entity) :
    findings.entities.get? reference = some entity ∨ .entity entity ∈ result.sources := by
  cases visits with
  | entity =>
      rw [Entries.get?_put] at known
      split at known
      · cases known
        exact .inr (mem_addNew.mpr (.inr rfl))
      · exact .inl known
  | _ => exact .inl known

theorem Makes.isSourced (makes : Makes built subplan findings step result handle)
    (known : findings.AreSourced subplan draft.sources) (grown : draft.sources ⊆ result.sources) :
    handle.IsSourced result.sources := by
  cases makes with
  | field holds isKnown name =>
      exact Handle.isSourced_field (grown (known.entities _ _ isKnown holds)) name
  | column _ _ _ listed => exact Handle.isSourced_column listed _ _
  | expression each =>
      refine Handle.isSourced_expression _ fun inner member => ?_
      exact (known.isSourced_of_holds (each inner member)).mono grown

/-- A visit to a step of a subplan keeps what was found there and the draft sourced. -/
theorem Visits.isSourced {after : Findings}
    (visits : Visits plan built subplan findings draft step after result)
    (inner : findings.AreInner plan) (belongs : plan.Belongs subplan step)
    (known : findings.AreSourced subplan draft.sources) (sourced : draft.IsSourced) :
    after.AreSourced subplan result.sources ∧ result.IsSourced := by
  have grown := visits.subset_sources
  obtain ⟨held, evaluated⟩ := visits.holds_of_each inner belongs
    (Handle.IsSourced result.sources)
    (fun handle held => (known.isSourced_of_holds held).mono grown)
    (fun handle makes => makes.isSourced known grown)
    (fun handle member => (sourced.handles handle member).mono grown)
  refine ⟨Findings.areSourced_of_holds held ?_, evaluated, ?_⟩
  · intro reference entity isKnown holds
    rcases visits.entities_cases isKnown with earlier | listed
    · exact grown (known.entities reference entity earlier holds)
    · exact listed
  · exact keeps_of_edits (fun next => next.sources.Nodup)
      (fun _ _ edit => edit.nodup_sources) (visits.edits inner belongs) sourced.distinct

/-! ## Runs -/

/-- What was found was found for steps of the subplans that were drafted. -/
def IsWithin (visited : List Subplan) (findings : Findings) : Prop :=
  ∀ reference, findings.Knows reference → ∃ subplan ∈ visited, subplan.has reference = true

structure IsBuilt (plan : Plan) (visited : List Subplan) (state : Findings × List Draft) : Prop where
  inner : state.1.AreInner plan
  within : IsWithin visited state.1
  ids : state.2.map (·.id) = visited.map (·.id)
  sourced : ∀ draft ∈ state.2, draft.IsSourced

theorem isBuilt_nil (plan : Plan) : IsBuilt plan [] ({}, []) := by
  refine ⟨?_, ?_, rfl, nofun⟩
  · rintro reference (known | known | known) <;> cases known
  · rintro reference (known | known | known) <;> cases known

/-- Nothing is known of the steps of a subplan before it is drafted. -/
theorem IsWithin.not_knows {before later : List Subplan} (divided : plan.IsDivided)
    (whole : plan.subplans = before ++ subplan :: later) (within : IsWithin before findings)
    (inner : findings.AreInner plan) {reference : StepRef}
    (holds : subplan.has reference = true) : ¬ findings.Knows reference := by
  intro known
  obtain ⟨earlier, member, earlierHolds⟩ := within reference known
  obtain ⟨step, found, -⟩ := inner reference known
  obtain rfl := Plan.reference_of_step? found
  have same : earlier = subplan := by
    refine divided.apart earlier ?_ subplan ?_ step (List.mem_of_find?_eq_some found) earlierHolds
      holds
    · simp [whole, member]
    · simp [whole]
  have increasing := divided.increasing
  rw [whole, List.pairwise_append] at increasing
  have less := increasing.2.2 earlier member subplan List.mem_cons_self
  rw [same] at less
  exact Nat.lt_irrefl _ less

/-- The state while a subplan is drafted, when the subplans `visited` end with it. -/
structure IsBuilding (plan : Plan) (subplan : Subplan) (visited : List Subplan)
    (findings : Findings) (draft : Draft) : Prop where
  id : draft.id = subplan.id
  inner : findings.AreInner plan
  within : IsWithin visited findings
  known : findings.AreSourced subplan draft.sources
  sourced : draft.IsSourced

theorem Visits.isBuilding {visited : List Subplan}
    (visits : Visits plan drafts subplan findings draft step after result)
    (belongs : plan.Belongs subplan step) (member : subplan ∈ visited)
    (building : IsBuilding plan subplan visited findings draft) :
    IsBuilding plan subplan visited after result := by
  obtain ⟨known, sourced⟩ :=
    visits.isSourced building.inner belongs building.known building.sourced
  refine ⟨visits.hasRegistered.id_eq.trans building.id, ?_, ?_, known, sourced⟩
  · intro reference knows
    rcases visits.knows_cases knows with earlier | ⟨rfl, -, noOutput⟩
    · exact building.inner reference earlier
    · exact ⟨step, belongs.found, decide_eq_false noOutput⟩
  · intro reference knows
    rcases visits.knows_cases knows with earlier | ⟨rfl, -⟩
    · exact building.within reference earlier
    · exact ⟨subplan, member, belongs.holds⟩

/-- Before a subplan is drafted, nothing is known of its steps. -/
theorem IsBuilt.isBuilding {before later : List Subplan} {state : Findings × List Draft}
    (isBuilt : IsBuilt plan before state) (divided : plan.IsDivided)
    (whole : plan.subplans = before ++ subplan :: later) :
    IsBuilding plan subplan (before ++ [subplan]) state.1 { id := subplan.id } := by
  have unknown {reference : StepRef} (holds : subplan.has reference = true) :
      ¬ state.1.Knows reference :=
    isBuilt.within.not_knows divided whole isBuilt.inner holds
  refine ⟨rfl, isBuilt.inner, ?_, Findings.areSourced_of_holds ?_ ?_, nofun, List.nodup_nil⟩
  · intro reference known
    obtain ⟨earlier, member, holds⟩ := isBuilt.within reference known
    exact ⟨earlier, List.mem_append_left _ member, holds⟩
  · intro handle held
    exact (Findings.not_holds (fun reference holds => unknown holds) held).elim
  · intro reference entity found holds
    exact (unknown holds (.inr (.inl (by simp [found])))).elim

theorem isBuilt_buildNext {before later : List Subplan} {state after : Findings × List Draft}
    (divided : plan.IsDivided) (whole : plan.subplans = before ++ subplan :: later)
    (isBuilt : IsBuilt plan before state) (built : buildNext plan state subplan = .ok after) :
    IsBuilt plan (before ++ [subplan]) after := by
  obtain ⟨draft, drafts, building⟩ := buildNext_keeps_of_has
    (IsBuilding plan subplan (before ++ [subplan]))
    (fun findings draft step after result found holds visits building =>
      visits.isBuilding ⟨divided, by simp [whole], found, holds⟩ (by simp) building)
    (isBuilt.isBuilding divided whole) built
  refine ⟨building.inner, building.within, ?_, ?_⟩
  · rw [drafts, List.map_append, List.map_append, isBuilt.ids, List.map_singleton,
      List.map_singleton, building.id]
  · intro other member
    rw [drafts, List.mem_append, List.mem_singleton] at member
    rcases member with earlier | rfl
    · exact isBuilt.sourced other earlier
    · exact building.sourced

end Draft

/-- The drafts of a plan are those of its subplans in order, and each lists its sources. -/
theorem Plan.IsDivided.isSourced_of_drafts {plan : Plan} (divided : plan.IsDivided)
    {drafts : List Draft} (drafted : plan.drafts = .ok drafts) :
    drafts.map (·.id) = plan.subplans.map (·.id) ∧ ∀ draft ∈ drafts, draft.IsSourced := by
  obtain ⟨⟨findings, built⟩, run, rfl⟩ := map_eq_ok_iff.mp drafted
  have isBuilt := foldlM_keeps_prefix (Draft.IsBuilt plan)
    (fun before subplan later state after whole isBuilt built =>
      Draft.isBuilt_buildNext divided whole isBuilt built) (Draft.isBuilt_nil plan) run
  exact ⟨isBuilt.ids, isBuilt.sourced⟩

/-- The numbers of the drafts of a plan increase. -/
theorem Plan.IsDivided.increasing_drafts {plan : Plan} (divided : plan.IsDivided)
    {drafts : List Draft} (drafted : plan.drafts = .ok drafts) :
    drafts.Pairwise fun first second => first.id.number < second.id.number := by
  have increasing : (plan.subplans.map (·.id)).Pairwise
      fun first second => first.number < second.number := List.pairwise_map.mpr divided.increasing
  rwa [← (divided.isSourced_of_drafts drafted).1, List.pairwise_map] at increasing

theorem Plan.IsDivided.nodup_drafts {plan : Plan} (divided : plan.IsDivided) {drafts : List Draft}
    (drafted : plan.drafts = .ok drafts) : (drafts.map (·.id)).Nodup := by
  refine List.pairwise_map.mpr ((divided.increasing_drafts drafted).imp ?_)
  intro first second less same
  rw [same] at less
  exact Nat.lt_irrefl _ less

end SemanticQuery
