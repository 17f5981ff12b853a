import SemanticQuery.Proofs.Draft.Visit
import SemanticQuery.Proofs.Entries

/-!
# The predicates of drafts

A draft's `filter` is a predicate that was not taken to need an aggregate, its `having` one that
was.  Both come from the clauses of the return step; no other visit touches them.
-/

namespace SemanticQuery

/-- What the handles of steps stand for: all but those of retrievals are expressions of the steps'
operations. -/
def Findings.AreExpressions (plan : Plan) (findings : Findings) : Prop :=
  ∀ reference handle, findings.handles.get? reference = some handle →
    ∃ step, plan.step? reference = some step ∧
      (step.operation.category = .retrieval ∨
        ∃ operands, handle = .expression step.operation operands)

namespace Draft

structure IsSplit (draft : Draft) : Prop where
  filter : ∀ predicate, draft.filter = some predicate →
    predicate.containsAggregate = false ∧ predicate.isAnalysis = false
  having : ∀ predicate, draft.having = some predicate → predicate.containsAggregate = true

def SamePredicates (draft after : Draft) : Prop :=
  after.filter = draft.filter ∧ after.having = draft.having

theorem SamePredicates.isSplit {draft after : Draft} (same : SamePredicates draft after)
    (split : draft.IsSplit) : after.IsSplit := by
  obtain ⟨filter, having⟩ := same
  exact ⟨filter ▸ split.filter, having ▸ split.having⟩

theorem samePredicates_foldl {α : Type} (change : Draft → α → Draft)
    (each : ∀ draft item, SamePredicates draft (change draft item)) (items : List α)
    (draft : Draft) : SamePredicates draft (items.foldl change draft) := by
  induction items generalizing draft with
  | nil => exact ⟨rfl, rfl⟩
  | cons item rest ih =>
      obtain ⟨laterFilter, laterHaving⟩ := ih (change draft item)
      obtain ⟨filter, having⟩ := each draft item
      exact ⟨laterFilter.trans filter, laterHaving.trans having⟩

theorem Places.isSplit {draft after : Draft} {predicate : Handle}
    (places : Places draft predicate after) (split : draft.IsSplit)
    (noAnalysis : predicate.isAnalysis = false) : after.IsSplit := by
  cases places with
  | having contains =>
      refine ⟨split.filter, ?_⟩
      rintro _ ⟨⟩
      exact contains
  | filter lacks =>
      refine ⟨?_, split.having⟩
      rintro _ ⟨⟩
      exact ⟨lacks, noAnalysis⟩

theorem isSplit_addClause {plan : Plan} {findings : Findings} {draft after : Draft} {step : Step}
    {target : StepRef} (expressions : findings.AreExpressions plan) (split : draft.IsSplit)
    (added : addClause plan findings step draft target = .ok after) : after.IsSplit := by
  obtain ⟨clause, found, rfl, takes⟩ := exists_takesClause added
  cases takes with
  | predicate category read places =>
      refine places.isSplit split ?_
      -- The clause is a predicate step, so its handle is no analysis.
      unfold Findings.handle at read
      split at read
      · rename_i handle known
        cases read
        obtain ⟨owner, ownerFound, kind⟩ := expressions _ _ known
        rw [found] at ownerFound
        cases ownerFound
        rcases kind with retrieval | ⟨operands, rfl⟩
        · rw [category] at retrieval
          cases retrieval
        · simp [Handle.isAnalysis, Operation.isAnalysis, category]
      · cases read
  | sort => exact (samePredicates_foldl sortByField (fun _ _ => ⟨rfl, rfl⟩) _ draft).isSplit split
  | limit => exact ⟨split.filter, split.having⟩

theorem isSplit_addReturn {plan : Plan} {findings : Findings} {draft after : Draft} {step : Step}
    (expressions : findings.AreExpressions plan) (split : draft.IsSplit)
    (returned : draft.addReturn plan findings step = .ok after) : after.IsSplit := by
  obtain ⟨_, _, _, handles, -, -, -, run⟩ := exists_of_addReturn returned
  refine foldlM_keeps IsSplit ?_ ?_ run
  · intro before target next beforeSplit added
    exact isSplit_addClause expressions beforeSplit added
  · exact (samePredicates_foldl returnField (fun _ _ => ⟨rfl, rfl⟩) handles draft).isSplit split

/-! ## Visits and runs -/

theorem areExpressions_put {plan : Plan} {findings : Findings} {reference : StepRef} {step : Step}
    {handle : Handle} (expressions : findings.AreExpressions plan)
    (found : plan.step? reference = some step)
    (kind : step.operation.category = .retrieval ∨
      ∃ operands, handle = .expression step.operation operands) :
    Findings.AreExpressions plan
      { findings with handles := findings.handles.put step.reference handle } := by
  intro other known isKnown
  rw [Entries.get?_put] at isKnown
  split at isKnown
  · rename_i same
    cases isKnown
    rw [← same, Plan.reference_of_step? found]
    exact ⟨step, found, kind⟩
  · exact expressions other known isKnown

theorem Visits.areExpressions {plan : Plan} {built : List Draft} {subplan : Subplan}
    {findings after : Findings} {draft result : Draft} {reference : StepRef} {step : Step}
    (found : plan.step? reference = some step)
    (visits : Visits plan built subplan findings draft step after result)
    (expressions : findings.AreExpressions plan) : after.AreExpressions plan := by
  cases visits with
  | entity | groupBy | sort | limit | collect | inner | root => exact expressions
  | retrieval category => exact areExpressions_put expressions found (.inl category)
  | operation | analysis | rowNumber =>
      exact areExpressions_put expressions found (.inr ⟨_, rfl⟩)

theorem Visits.isSplit {plan : Plan} {built : List Draft} {subplan : Subplan}
    {findings after : Findings} {draft result : Draft} {step : Step}
    (visits : Visits plan built subplan findings draft step after result)
    (expressions : findings.AreExpressions plan) (split : draft.IsSplit) : result.IsSplit := by
  cases visits with
  | entity | operation | analysis | rowNumber => exact ⟨split.filter, split.having⟩
  | retrieval _ read =>
      rcases eq_of_retrieve read with rfl | ⟨source, rfl⟩
      · exact split
      · exact ⟨split.filter, split.having⟩
  | @groupBy handles =>
      exact (samePredicates_foldl groupByField (fun _ _ => ⟨rfl, rfl⟩) handles draft).isSplit split
  | sort | limit | collect | inner => exact split
  | root _ _ returned => exact isSplit_addReturn expressions split returned

/-- In every draft of a plan the predicates were told apart. -/
theorem isSplit_of_drafts {plan : Plan} {drafts : List Draft} (drafted : plan.drafts = .ok drafts) :
    ∀ draft ∈ drafts, draft.IsSplit := by
  obtain ⟨⟨findings, built⟩, run, rfl⟩ := map_eq_ok_iff.mp drafted
  have empty : Findings.AreExpressions plan {} := by
    intro reference handle none
    cases none
  have all : findings.AreExpressions plan ∧ ∀ draft ∈ built, draft.IsSplit := by
    refine foldlM_keeps (fun state : Findings × List Draft =>
      state.1.AreExpressions plan ∧ ∀ draft ∈ state.2, draft.IsSplit) ?_ ⟨empty, by simp⟩ run
    rintro state subplan after ⟨expressions, split⟩ added
    obtain ⟨draft, whole, keptExpressions, isSplit⟩ := buildNext_keeps
      (fun findings draft => findings.AreExpressions plan ∧ draft.IsSplit)
      (fun _ _ _ _ _ _ found visits kept =>
        ⟨visits.areExpressions found kept.1, visits.isSplit kept.1 kept.2⟩)
      ⟨expressions, by simp, by simp⟩ added
    refine ⟨keptExpressions, ?_⟩
    intro other member
    rw [whole, List.mem_append, List.mem_singleton] at member
    rcases member with earlier | rfl
    · exact split other earlier
    · exact isSplit
  exact all.2

end Draft

end SemanticQuery
