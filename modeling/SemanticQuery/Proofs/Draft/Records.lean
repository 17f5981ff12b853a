import SemanticQuery.Proofs.Draft.Coverage

/-!
# What drafting records

Each step of a plan is visited once.  A visit puts what it finds under its own step, so what was found
for the steps before stays as it was: every sort that was visited has the keys that it is written
with, and every limit its number, until all subplans are drafted.
-/

namespace SemanticQuery

def Argument.sortKeys : List Argument → List (StepRef × Direction)
  | .reference target :: .literal word :: rest =>
      match Direction.ofText? word.content with
      | some direction => (target, direction) :: sortKeys rest
      | none => sortKeys rest
  | _ => []

theorem Argument.AreKeys.sortKeys_eq {arguments : List Argument}
    {keys : List (StepRef × Direction)} (areKeys : AreKeys arguments keys) :
    sortKeys arguments = keys := by
  induction areKeys with
  | nil => rfl
  | cons target word isRead others ih => rw [sortKeys, isRead, ih]

namespace Step

def sortKeys (step : Step) : List (StepRef × Direction) :=
  if step.operation = .sort then Argument.sortKeys step.arguments else []

def limit? (step : Step) : Option Nat :=
  if step.operation = .limit then Number.nat64? (Draft.firstContent step) else none

variable {step : Step}

theorem sortKeys_eq_nil (other : step.operation.category ≠ .sort) : step.sortKeys = [] :=
  if_neg fun isSort => other (by rw [isSort]; rfl)

theorem limit?_eq_none (other : step.operation.category ≠ .limit) : step.limit? = none :=
  if_neg fun isLimit => other (by rw [isLimit]; rfl)

theorem operation_of_limit? {count : Nat} (limits : step.limit? = some count) :
    step.operation = .limit := by
  by_contra other
  rw [limit?, if_neg other] at limits
  cases limits

end Step

def Plan.findings (plan : Plan) : Except Error Findings :=
  (plan.subplans.foldlM (Draft.buildNext plan) ({}, [])).map (·.1)

namespace Findings

variable {plan : Plan} {findings after : Findings} {visited : List StepRef}

/-- A key with the direction it is sorted in, and the handle that was found for it. -/
def IsKey (findings : Findings) (key : StepRef × Direction) (pair : Handle × Direction) : Prop :=
  findings.handles.get? key.1 = some pair.1 ∧ key.2 = pair.2

def KeptIn (findings after : Findings) : Prop :=
  ∀ reference handle, findings.handles.get? reference = some handle →
    after.handles.get? reference = some handle

theorem KeptIn.refl (findings : Findings) : findings.KeptIn findings :=
  fun _ _ found => found

theorem KeptIn.trans {last : Findings} (first : findings.KeptIn after) (second : after.KeptIn last) :
    findings.KeptIn last :=
  fun reference handle found => second reference handle (first reference handle found)

theorem IsKey.mono {key : StepRef × Direction} {pair : Handle × Direction}
    (isKey : findings.IsKey key pair) (kept : findings.KeptIn after) : after.IsKey key pair :=
  ⟨kept _ _ isKey.1, isKey.2⟩

/-- What was found for the steps that were visited, and only for these. -/
structure Records (plan : Plan) (findings : Findings) (visited : List StepRef) : Prop where
  handles : ∀ reference, (findings.handles.get? reference).isSome = true → reference ∈ visited
  sorts : ∀ step ∈ plan.steps, step.reference ∈ visited → step.operation = .sort →
    ∃ pairs, findings.sorts.get? step.reference = some pairs ∧
      List.Forall₂ findings.IsKey step.sortKeys pairs
  limits : ∀ step ∈ plan.steps, step.reference ∈ visited → step.operation = .limit →
    ∃ count, step.limit? = some count ∧ findings.limits.get? step.reference = some count

theorem records_nil (plan : Plan) : Records plan {} [] where
  handles := nofun
  sorts := nofun
  limits := nofun

/-- The keys of a sort are found as they are written. -/
theorem areKeys_of_sortPairs {step : Step} {arguments : List Argument}
    {keys : List (StepRef × Direction)} (areKeys : Argument.AreKeys arguments keys)
    {pairs : List (Handle × Direction)}
    (read : findings.sortPairs step arguments = .ok pairs) :
    List.Forall₂ findings.IsKey keys pairs := by
  rw [sortPairs_eq_mapM areKeys, mapM_eq_ok_iff] at read
  refine read.imp ?_
  intro key pair found
  obtain ⟨handle, isHandle, rfl⟩ := map_eq_ok_iff.mp found
  exact ⟨eq_some_of_handle isHandle, rfl⟩

end Findings

namespace Plan.IsArranged

variable {plan : Plan} {subplan : Subplan}

/-- No step is visited twice. -/
theorem nodup_stepsOf (arranged : plan.IsArranged) :
    (plan.subplans.flatMap plan.stepsOf).Nodup := by
  have order : plan.order.Nodup := by
    rw [arranged.isOrder.perm.nodup_iff, arranged.nodes]
    exact arranged.divided.distinct
  have subplans : plan.subplans.Nodup := List.Nodup.of_map _ arranged.decomposed.distinct
  refine List.nodup_flatMap.mpr ⟨fun subplan _ => order.filter _, ?_⟩
  refine subplans.imp_of_mem ?_
  intro first second firstListed secondListed differ reference inFirst inSecond
  obtain ⟨listed, firstHas⟩ := List.mem_filter.mp inFirst
  obtain ⟨step, found⟩ := arranged.exists_step_of_node (arranged.isOrder.perm.mem_iff.mp listed)
  obtain rfl := Plan.reference_of_step? found
  exact differ (arranged.divided.apart first firstListed second secondListed step
    (List.mem_of_find?_eq_some found) firstHas (List.mem_filter.mp inSecond).2)

/-- A step was not visited before its turn. -/
theorem not_mem_visited (arranged : plan.IsArranged) {earlier later : List Subplan}
    (whole : plan.subplans = earlier ++ subplan :: later) {before after : List StepRef}
    {reference : StepRef} (steps : plan.stepsOf subplan = before ++ reference :: after) :
    reference ∉ earlier.flatMap plan.stepsOf ++ before := by
  have distinct := arranged.nodup_stepsOf
  rw [whole, List.flatMap_append, List.flatMap_cons, steps, List.append_assoc, ← List.append_assoc,
    List.cons_append] at distinct
  intro member
  exact (List.nodup_append.mp distinct).2.2 reference member reference List.mem_cons_self rfl

end Plan.IsArranged

namespace Draft

variable {plan : Plan} {built : List Draft} {subplan : Subplan} {findings after : Findings}
  {draft result : Draft} {step : Step} {visited : List StepRef}

/-- A visit finds no handle for another step, and loses none. -/
theorem Visits.get?_handles (visits : Visits plan built subplan findings draft step after result)
    {reference : StepRef} (other : reference ≠ step.reference) :
    after.handles.get? reference = findings.handles.get? reference := by
  cases visits with
  | entity | groupBy | sort | limit | collect | inner | root => rfl
  | retrieval | operation | analysis | rowNumber =>
      exact Entries.get?_put.trans (if_neg other.symm)

theorem Visits.get?_sorts (visits : Visits plan built subplan findings draft step after result)
    {reference : StepRef} (other : reference ≠ step.reference) :
    after.sorts.get? reference = findings.sorts.get? reference := by
  cases visits with
  | sort => exact Entries.get?_put.trans (if_neg other.symm)
  | _ => rfl

theorem Visits.get?_limits (visits : Visits plan built subplan findings draft step after result)
    {reference : StepRef} (other : reference ≠ step.reference) :
    after.limits.get? reference = findings.limits.get? reference := by
  cases visits with
  | limit => exact Entries.get?_put.trans (if_neg other.symm)
  | _ => rfl

theorem Visits.keptIn (visits : Visits plan built subplan findings draft step after result)
    (records : findings.Records plan visited) (fresh : step.reference ∉ visited) :
    findings.KeptIn after := by
  intro reference handle found
  have other : reference ≠ step.reference := by
    rintro rfl
    exact fresh (records.handles _ (by simp [found]))
  rw [visits.get?_handles other, found]

/-- A visit to a sort finds the keys that it is written with. -/
theorem Visits.finds_sort (visits : Visits plan built subplan findings draft step after result)
    (operation : step.operation = .sort) {keys : List (StepRef × Direction)}
    (areKeys : Argument.AreKeys step.arguments keys) :
    ∃ pairs, after.sorts.get? step.reference = some pairs ∧
      List.Forall₂ findings.IsKey step.sortKeys pairs := by
  have category : step.operation.category = .sort := by rw [operation]; rfl
  have sortKeys : step.sortKeys = keys := by
    rw [Step.sortKeys, if_pos operation, areKeys.sortKeys_eq]
  cases visits with
  | @sort pairs _ read =>
      refine ⟨pairs, by rw [Entries.get?_put, if_pos rfl], ?_⟩
      rw [sortKeys]
      exact Findings.areKeys_of_sortPairs areKeys read
  -- The other visits are to steps of other categories.
  | _ => simp_all

/-- A visit to a limit finds its number. -/
theorem Visits.finds_limit (visits : Visits plan built subplan findings draft step after result)
    (operation : step.operation = .limit) :
    ∃ count, step.limit? = some count ∧ after.limits.get? step.reference = some count := by
  have category : step.operation.category = .limit := by rw [operation]; rfl
  cases visits with
  | @limit count _ read =>
      exact ⟨count, by rw [Step.limit?, if_pos operation, read], by rw [Entries.get?_put, if_pos rfl]⟩
  | _ => simp_all

/-- A visit to another step adds what it finds to what was recorded. -/
theorem Visits.records (visits : Visits plan built subplan findings draft step after result)
    (arranged : plan.IsArranged) (found : plan.step? step.reference = some step)
    (records : findings.Records plan visited) (fresh : step.reference ∉ visited) :
    after.Records plan (visited ++ [step.reference]) := by
  have kept := visits.keptIn records fresh
  have earlier_or_same {other : Step} (member : other ∈ plan.steps)
      (listed : other.reference ∈ visited ++ [step.reference]) :
      other.reference ∈ visited ∧ other.reference ≠ step.reference ∨ other = step := by
    rcases List.mem_append.mp listed with earlier | same
    · exact .inl ⟨earlier, fun same => fresh (same ▸ earlier)⟩
    · have isOther := arranged.step?_reference member
      rw [List.mem_singleton.mp same, found] at isOther
      exact .inr (Option.some.inj isOther).symm
  refine ⟨?_, ?_, ?_⟩
  · intro reference known
    by_cases same : reference = step.reference
    · simp [same]
    · rw [visits.get?_handles same] at known
      exact List.mem_append_left _ (records.handles reference known)
  · intro other member listed operation
    rcases earlier_or_same member listed with ⟨earlier, differ⟩ | rfl
    · obtain ⟨pairs, isKnown, areKeys⟩ := records.sorts other member earlier operation
      exact ⟨pairs, by rw [visits.get?_sorts differ, isKnown], areKeys.imp fun _ _ isKey =>
        isKey.mono kept⟩
    · obtain ⟨keys, areKeys⟩ := arranged.areKeys member operation
      obtain ⟨pairs, isKnown, areFound⟩ := visits.finds_sort operation areKeys
      exact ⟨pairs, isKnown, areFound.imp fun _ _ isKey => isKey.mono kept⟩
  · intro other member listed operation
    rcases earlier_or_same member listed with ⟨earlier, differ⟩ | rfl
    · obtain ⟨count, isCount, isKnown⟩ := records.limits other member earlier operation
      exact ⟨count, isCount, by rw [visits.get?_limits differ, isKnown]⟩
    · exact visits.finds_limit operation

/-! ## Runs -/

/-- What each visit to a step of a subplan keeps, given what was recorded before it, holds of the
draft of the subplan and of what is recorded then. -/
theorem buildNext_records (arranged : plan.IsArranged) {earlier later : List Subplan}
    (whole : plan.subplans = earlier ++ subplan :: later) {state next : Findings × List Draft}
    (records : state.1.Records plan (earlier.flatMap plan.stepsOf))
    (property : List StepRef → Findings → Draft → Prop)
    (keeps : ∀ before step rest findings draft after result,
      plan.stepsOf subplan = before ++ step.reference :: rest →
      plan.step? step.reference = some step →
      findings.Records plan (earlier.flatMap plan.stepsOf ++ before) → findings.KeptIn after →
      Visits plan state.2 subplan findings draft step after result →
      property before findings draft → property (before ++ [step.reference]) after result)
    (start : property [] state.1 { id := subplan.id })
    (built : buildNext plan state subplan = .ok next) :
    ∃ draft, next.2 = state.2 ++ [draft] ∧ state.1.KeptIn next.1 ∧
      next.1.Records plan ((earlier ++ [subplan]).flatMap plan.stepsOf) ∧
      property (plan.stepsOf subplan) next.1 draft := by
  obtain ⟨⟨findings, draft⟩, run, same⟩ := bind_eq_ok_iff.mp built
  cases same
  rw [List.flatMap_append, List.flatMap_singleton]
  refine ⟨draft, rfl, ?_⟩
  refine foldlM_keeps_prefix (fun before (pair : Findings × Draft) => state.1.KeptIn pair.1 ∧
    pair.1.Records plan (earlier.flatMap plan.stepsOf ++ before) ∧ property before pair.1 pair.2)
    ?_ ⟨.refl _, by rwa [List.append_nil], start⟩ run
  rintro before reference rest ⟨findings, draft⟩ ⟨after, result⟩ steps ⟨kept, records, holds⟩ visited
  obtain ⟨step, found, visits⟩ := exists_visits_of_visitRef visited
  obtain rfl := Plan.reference_of_step? found
  have fresh := arranged.not_mem_visited whole steps
  have keptNext := visits.keptIn records fresh
  refine ⟨kept.trans keptNext, ?_, keeps before step rest _ _ _ _ steps found records keptNext visits
    holds⟩
  rw [← List.append_assoc]
  exact visits.records arranged found records fresh

end Draft

namespace Plan

variable {plan : Plan}

/-- Once a plan is drafted, what was found for all of its steps is recorded. -/
theorem IsArranged.records_of_drafts (arranged : plan.IsArranged) {drafts : List Draft}
    (drafted : plan.drafts = .ok drafts) :
    ∃ findings, plan.findings = .ok findings ∧
      findings.Records plan (plan.subplans.flatMap plan.stepsOf) := by
  obtain ⟨⟨findings, built⟩, run, -⟩ := map_eq_ok_iff.mp drafted
  refine ⟨findings, map_eq_ok_iff.mpr ⟨_, run, rfl⟩, ?_⟩
  refine foldlM_keeps_prefix (fun visited (state : Findings × List Draft) =>
    state.1.Records plan (visited.flatMap plan.stepsOf)) ?_ (Findings.records_nil plan) run
  intro earlier subplan later state next whole records built
  obtain ⟨_, -, -, recorded, -⟩ := Draft.buildNext_records arranged whole records
    (fun _ _ _ => True) (fun _ _ _ _ _ _ _ _ _ _ _ _ _ => trivial) trivial built
  exact recorded

/-- Every step is visited. -/
theorem IsArranged.mem_visited (arranged : plan.IsArranged) {step : Step}
    (member : step ∈ plan.steps) : step.reference ∈ plan.subplans.flatMap plan.stepsOf := by
  obtain ⟨subplan, ⟨listed, holds⟩, -⟩ := arranged.decomposed.onePlace step member
  exact List.mem_flatMap.mpr ⟨subplan, listed, arranged.mem_stepsOf listed holds⟩

end Plan

end SemanticQuery
