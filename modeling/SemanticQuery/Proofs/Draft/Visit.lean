import SemanticQuery.Draft.Build
import SemanticQuery.Proofs.Outcome

/-!
# Visits

What a successful visit to a step does to the findings and to the draft, by the kind of step.
-/

namespace SemanticQuery

theorem Plan.reference_of_step? {plan : Plan} {reference : StepRef} {step : Step}
    (found : plan.step? reference = some step) : step.reference = reference := by
  simpa using List.find?_some found

namespace Draft

/-- What a visit to a step makes of the findings and the draft. -/
inductive Visits (plan : Plan) (built : List Draft) (subplan : Subplan) (findings : Findings)
    (draft : Draft) (step : Step) : Findings → Draft → Prop where
  | entity (operation : step.operation = .retrieveEntity) :
      Visits plan built subplan findings draft step
        { findings with entities := findings.entities.put step.reference (firstContent step) }
        (draft.addSource (.entity (firstContent step)))
  | retrieval {found : Handle} {after : Draft} (category : step.operation.category = .retrieval)
      (read : draft.retrieve plan built findings subplan step = .ok (found, after)) :
      Visits plan built subplan findings draft step
        { findings with handles := findings.handles.put step.reference found } after
  | operation {operands : List Operand}
      (category : step.operation.category = .predicate ∨ step.operation.category = .arithmetic)
      (read : findings.operands step (fun _ => true) step.arguments = .ok operands) :
      Visits plan built subplan findings draft step
        (keepExpression findings draft step operands).1
        (keepExpression findings draft step operands).2
  | analysis {operands : List Operand} (category : step.operation.category = .analysis)
      (read : findings.operands step (isNoGrouping plan) step.arguments = .ok operands) :
      Visits plan built subplan findings draft step
        (keepExpression findings draft step operands).1
        (keepExpression findings draft step operands).2
  | rowNumber {pairs : List (Handle × Direction)} (category : step.operation.category = .rowNumber)
      (read : sortOf findings step = .ok pairs) :
      Visits plan built subplan findings draft step
        (keepExpression findings draft step
          (pairs.flatMap fun pair => [.handle pair.1, .direction pair.2])).1
        (keepExpression findings draft step
          (pairs.flatMap fun pair => [.handle pair.1, .direction pair.2])).2
  | groupBy {handles : List Handle} (category : step.operation.category = .aggregation)
      (read : step.references.mapM (findings.handle step) = .ok handles) :
      Visits plan built subplan findings draft step findings (handles.foldl groupByField draft)
  | sort {pairs : List (Handle × Direction)} (category : step.operation.category = .sort)
      (read : findings.sortPairs step step.arguments = .ok pairs) :
      Visits plan built subplan findings draft step
        { findings with sorts := findings.sorts.put step.reference pairs } draft
  | limit {count : Nat} (category : step.operation.category = .limit)
      (read : Number.nat64? (firstContent step) = some count) :
      Visits plan built subplan findings draft step
        { findings with limits := findings.limits.put step.reference count } draft
  | collect (category : step.operation.category = .collect) :
      Visits plan built subplan findings draft step findings draft
  | inner (category : step.operation.category = .output) (other : step.reference ≠ subplan.root) :
      Visits plan built subplan findings draft step findings draft
  | root {after : Draft} (category : step.operation.category = .output)
      (isRoot : step.reference = subplan.root)
      (returned : draft.addReturn plan findings step = .ok after) :
      Visits plan built subplan findings draft step findings after

theorem visits_of_visit {plan : Plan} {built : List Draft} {subplan : Subplan}
    {findings after : Findings} {draft result : Draft} {step : Step}
    (visited : visit plan built subplan findings draft step = .ok (after, result)) :
    Visits plan built subplan findings draft step after result := by
  unfold visit at visited
  split at visited
  · rename_i category
    split at visited
    · rename_i operation
      cases visited
      exact .entity operation
    · obtain ⟨⟨found, changed⟩, read, same⟩ := bind_eq_ok_iff.mp visited
      cases same
      exact .retrieval category read
  · rename_i category
    obtain ⟨operands, read, same⟩ := bind_eq_ok_iff.mp visited
    cases same
    exact .operation (.inl category) read
  · rename_i category
    obtain ⟨operands, read, same⟩ := bind_eq_ok_iff.mp visited
    cases same
    exact .operation (.inr category) read
  · rename_i category
    obtain ⟨operands, read, same⟩ := bind_eq_ok_iff.mp visited
    cases same
    exact .analysis category read
  · rename_i category
    obtain ⟨handles, read, same⟩ := bind_eq_ok_iff.mp visited
    cases same
    exact .groupBy category read
  · rename_i category
    obtain ⟨pairs, read, same⟩ := bind_eq_ok_iff.mp visited
    cases same
    exact .rowNumber category read
  · rename_i category
    obtain ⟨pairs, read, same⟩ := bind_eq_ok_iff.mp visited
    cases same
    exact .sort category read
  · rename_i category
    split at visited
    · rename_i count read
      cases visited
      exact .limit category read
    · cases visited
  · rename_i category
    cases visited
    exact .collect category
  · rename_i category
    split at visited
    · rename_i isRoot
      obtain ⟨changed, returned, same⟩ := bind_eq_ok_iff.mp visited
      cases same
      exact .root category isRoot returned
    · rename_i other
      cases visited
      exact .inner category other

/-- A visit to the retrieval of an attribute retrieves it. -/
theorem Visits.exists_retrieve {plan : Plan} {built : List Draft} {subplan : Subplan}
    {findings after : Findings} {draft result : Draft} {step : Step}
    (visits : Visits plan built subplan findings draft step after result)
    (retrieval : step.operation = .retrieveAttribute) :
    ∃ found, draft.retrieve plan built findings subplan step = .ok (found, result) := by
  cases visits with
  | entity operation =>
      rw [retrieval] at operation
      cases operation
  | @retrieval found _ _ read => exact ⟨found, read⟩
  | operation category =>
      rw [retrieval] at category
      rcases category with impossible | impossible <;> cases impossible
  | analysis category | rowNumber category | groupBy category | sort category | limit category
  | collect category | inner category | root category =>
      rw [retrieval] at category
      cases category

/-- A visit by reference is a visit to the step of that reference. -/
theorem exists_visits_of_visitRef {plan : Plan} {built : List Draft} {subplan : Subplan}
    {state after : Findings × Draft} {reference : StepRef}
    (visited : visitRef plan built subplan state reference = .ok after) :
    ∃ step, plan.step? reference = some step ∧
      Visits plan built subplan state.1 state.2 step after.1 after.2 := by
  unfold visitRef at visited
  split at visited
  · rename_i step found
    exact ⟨step, found, visits_of_visit visited⟩
  · cases visited

theorem mem_subplans_of_parentOf {plan : Plan} {subplan parent : Subplan} {step : Step}
    {target : StepRef} (found : parentOf plan subplan step target = .ok parent) :
    parent ∈ plan.subplans ∧ parent.root = target := by
  unfold parentOf at found
  split at found
  · cases found
  · rename_i only others
    split at found
    · rename_i isRoot
      cases found
      have member : parent ∈ plan.othersWith target subplan.id := others ▸ List.mem_cons_self
      exact ⟨(List.mem_filter.mp member).1, isRoot⟩
    · cases found
  · cases found

/-- What a retrieval finds: an attribute of an entity of the subplan, or a column that another subplan
returns, which becomes a source. -/
theorem retrieve_cases {plan : Plan} {built : List Draft} {subplan : Subplan}
    {findings : Findings} {draft after : Draft} {step : Step} {found : Handle}
    (read : draft.retrieve plan built findings subplan step = .ok (found, after)) :
    ∃ target, step.arguments.head? = some (.reference target) ∧
      ((∃ entity name, subplan.has target = true ∧
          findings.entities.get? target = some entity ∧ found = .field entity name ∧ after = draft) ∨
        ∃ parent ∈ plan.subplans, parent.root = target ∧ ∃ other ∈ built, other.id = parent.id ∧
          ∃ column ∈ other.select, ∃ origin, other.fields.get? column = some origin ∧
            found = .column other.id column origin ∧
            after = draft.addSource (.subplan other.id)) := by
  unfold retrieve at read
  split at read
  · rename_i target name _ written
    refine ⟨target, by rw [written]; rfl, ?_⟩
    split at read
    · rename_i holds
      split at read
      · rename_i entity known
        cases read
        exact .inl ⟨entity, name.content, holds, known, rfl, rfl⟩
      · cases read
    · obtain ⟨parent, isParent, read⟩ := bind_eq_ok_iff.mp read
      obtain ⟨listed, isRoot⟩ := mem_subplans_of_parentOf isParent
      split at read
      · cases read
      · rename_i other isOther
        obtain ⟨column, -, read⟩ := bind_eq_ok_iff.mp read
        obtain ⟨handle, isColumn, same⟩ := bind_eq_ok_iff.mp read
        cases same
        have sameId : other.id = parent.id := by simpa using List.find?_some isOther
        unfold columnHandle at isColumn
        split at isColumn
        · rename_i origin stored
          split at isColumn
          · rename_i exposed
            cases isColumn
            exact .inr ⟨parent, listed, isRoot, other, List.mem_of_find?_eq_some isOther, sameId,
              column, of_decide_eq_true exposed, origin, stored, rfl, by rw [sameId]⟩
          · cases isColumn
        · cases isColumn
  · cases read

/-- Reading a column of another subplan makes it a source; nothing else in the draft changes. -/
theorem eq_of_retrieve {plan : Plan} {built : List Draft} {subplan : Subplan}
    {findings : Findings} {draft after : Draft} {step : Step} {found : Handle}
    (read : draft.retrieve plan built findings subplan step = .ok (found, after)) :
    after = draft ∨ ∃ source, after = draft.addSource source := by
  rcases retrieve_cases read with
    ⟨_, -, ⟨_, _, -, -, -, same⟩ | ⟨_, -, -, _, -, -, _, -, _, -, -, same⟩⟩
  · exact .inl same
  · exact .inr ⟨_, same⟩

/-! ## Return steps -/

inductive Places (draft : Draft) (predicate : Handle) : Draft → Prop where
  | having (contains : predicate.containsAggregate = true) (free : draft.having = none) :
      Places draft predicate { draft with having := some predicate }
  | filter (lacks : predicate.containsAggregate = false) (free : draft.filter = none) :
      Places draft predicate { draft with filter := some predicate }

theorem places_of_addPredicate {draft result : Draft} {step : Step} {predicate : Handle}
    (added : draft.addPredicate step predicate = .ok result) : Places draft predicate result := by
  unfold addPredicate at added
  split at added
  · rename_i contains
    split at added
    · cases added
    · rename_i taken
      cases added
      exact .having contains (by simpa using taken)
  · rename_i lacks
    split at added
    · cases added
    · rename_i taken
      cases added
      exact .filter (by simpa using lacks) (by simpa using taken)

/-- What a clause of a return step makes of a draft. -/
inductive TakesClause (findings : Findings) (step : Step) (draft : Draft) (clause : Step) :
    Draft → Prop where
  | predicate {predicate : Handle} {result : Draft}
      (category : clause.operation.category = .predicate)
      (read : findings.handle step clause.reference = .ok predicate)
      (places : Places draft predicate result) :
      TakesClause findings step draft clause result
  | sort (category : clause.operation.category = .sort) :
      TakesClause findings step draft clause
        (((findings.sorts.get? clause.reference).getD []).foldl sortByField draft)
  | limit (category : clause.operation.category = .limit) :
      TakesClause findings step draft clause
        { draft with limit := findings.limits.get? clause.reference }

/-- A clause that is added is a step of a kind that return steps take. -/
theorem exists_takesClause {plan : Plan} {findings : Findings} {draft result : Draft} {step : Step}
    {target : StepRef} (added : addClause plan findings step draft target = .ok result) :
    ∃ clause, plan.step? target = some clause ∧ clause.reference = target ∧
      TakesClause findings step draft clause result := by
  unfold addClause at added
  split at added
  · cases added
  · rename_i clause found
    obtain rfl := Plan.reference_of_step? found
    refine ⟨clause, found, rfl, ?_⟩
    split at added
    · rename_i category
      obtain ⟨predicate, read, placed⟩ := bind_eq_ok_iff.mp added
      exact .predicate category read (places_of_addPredicate placed)
    · rename_i category
      cases added
      exact .sort category
    · rename_i category
      cases added
      exact .limit category
    · cases added

/-- A return step returns the columns of its collect step, and then takes its clauses in order. -/
theorem exists_of_addReturn {plan : Plan} {findings : Findings} {draft result : Draft} {step : Step}
    (returned : draft.addReturn plan findings step = .ok result) :
    ∃ first clauses collect handles, step.references = first :: clauses ∧
      plan.step? first = some collect ∧
      collect.references.mapM (findings.handle collect) = .ok handles ∧
      clauses.foldlM (addClause plan findings step) (handles.foldl returnField draft) =
        .ok result := by
  unfold addReturn at returned
  split at returned
  · cases returned
  · rename_i first clauses references
    split at returned
    · cases returned
    · rename_i collect found
      obtain ⟨handles, read, run⟩ := bind_eq_ok_iff.mp returned
      exact ⟨first, clauses, collect, handles, references, found, read, run⟩

/-! ## Runs -/

/-- What every visit to a step of a subplan keeps holds of its draft and of the findings after it. -/
theorem buildNext_keeps_of_has {plan : Plan} {state after : Findings × List Draft}
    {subplan : Subplan} (property : Findings → Draft → Prop)
    (keeps : ∀ findings draft step after result, plan.step? step.reference = some step →
      subplan.has step.reference = true →
      Visits plan state.2 subplan findings draft step after result →
      property findings draft → property after result)
    (start : property state.1 { id := subplan.id })
    (built : buildNext plan state subplan = .ok after) :
    ∃ draft, after.2 = state.2 ++ [draft] ∧ property after.1 draft := by
  obtain ⟨⟨findings, draft⟩, run, same⟩ := bind_eq_ok_iff.mp built
  cases same
  refine ⟨draft, rfl, ?_⟩
  refine foldlM_keeps_of_mem (fun pair : Findings × Draft => property pair.1 pair.2) ?_ start run
  intro before reference member next holds visited
  obtain ⟨step, found, visits⟩ := exists_visits_of_visitRef visited
  obtain rfl := Plan.reference_of_step? found
  exact keeps _ _ step _ _ found (List.mem_filter.mp member).2 visits holds

/-- What every visit keeps holds of the draft of a subplan and of the findings after it. -/
theorem buildNext_keeps {plan : Plan} {state after : Findings × List Draft} {subplan : Subplan}
    (property : Findings → Draft → Prop)
    (keeps : ∀ findings draft reference step after result, plan.step? reference = some step →
      Visits plan state.2 subplan findings draft step after result →
      property findings draft → property after result)
    (start : property state.1 { id := subplan.id })
    (built : buildNext plan state subplan = .ok after) :
    ∃ draft, after.2 = state.2 ++ [draft] ∧ property after.1 draft :=
  buildNext_keeps_of_has property
    (fun findings draft step after result found _ => keeps findings draft _ step after result found)
    start built

end Draft

end SemanticQuery
