import SemanticQuery.Proofs.Draft.Visit
import SemanticQuery.Proofs.Renaming.Plan
import SemanticQuery.Proofs.Step.Form

/-!
# Renaming the steps that are drafted

Drafts hold no names of steps but those noted as the origins of expressions.  So a renamed plan has the
same drafts with renamed origins, as long as no name of a step is taken for the name of an attribute.
-/

namespace SemanticQuery

variable (newName : StepRef ↪ StepRef)

/-- A direction that was read is no reference, and none is read from a reference. -/
theorem Direction.ofText?_content_rename (a : Argument) :
    ofText? (a.rename newName).content = ofText? a.content := by
  have unread (reference : StepRef) : ofText? reference.text = none := by
    have bar : (Text.lower reference.text).toList.head? = some '|' := by
      simp [Text.lower, StepRef.toList_text]
    unfold ofText?
    split
    · rename_i ascending
      rw [ascending] at bar
      cases bar
    · rename_i descending
      rw [descending] at bar
      cases bar
    · rfl
  cases a with
  | reference target => exact (unread _).trans (unread _).symm
  | literal value => rfl

/-! ## Findings -/

namespace Findings

def rename (findings : Findings) : Findings where
  handles := findings.handles.relabel newName id
  entities := findings.entities.relabel newName id
  sorts := findings.sorts.relabel newName id
  limits := findings.limits.relabel newName id

variable (findings : Findings) (step : Step)

theorem toOption_handle_rename (target : StepRef) :
    ((findings.rename newName).handle (step.rename newName) (newName target)).toOption =
      (findings.handle step target).toOption := by
  simp only [handle, rename, Entries.get?_relabel, Option.map_id_fun, id]
  cases findings.handles.get? target <;> rfl

theorem toOption_handles_rename (targets : List StepRef) :
    ((targets.map newName).mapM ((findings.rename newName).handle (step.rename newName))).toOption =
      (targets.mapM (findings.handle step)).toOption := by
  induction targets with
  | nil => rfl
  | cons target rest ih =>
      simp only [List.map_cons, List.mapM_cons, toOption_bind, toOption_handle_rename, ih]

theorem toOption_operands_rename {included included' : StepRef → Bool}
    (same : ∀ target, included' (newName target) = included target) (arguments : List Argument) :
    ((findings.rename newName).operands (step.rename newName) included'
        (arguments.map (Argument.rename newName))).toOption =
      (findings.operands step included arguments).toOption := by
  induction arguments with
  | nil => rfl
  | cons argument rest ih =>
      cases argument with
      | literal value =>
          simp only [List.map_cons, Argument.rename, operands, toOption_bind, ih]
      | reference target =>
          simp only [List.map_cons, Argument.rename, operands, same]
          split
          · simp only [toOption_bind, toOption_handle_rename, ih]
          · exact ih

theorem toOption_sortPairs_rename (arguments : List Argument) :
    ((findings.rename newName).sortPairs (step.rename newName)
        (arguments.map (Argument.rename newName))).toOption =
      (findings.sortPairs step arguments).toOption := by
  fun_induction sortPairs findings step arguments with
  | case1 => rfl
  | case2 => rfl
  | case3 => rfl
  | case4 target direction rest ih =>
      have first : Argument.rename newName (.reference target) = .reference (newName target) := rfl
      simp only [List.map_cons, first, sortPairs, toOption_bind, toOption_handle_rename, ih,
        Direction.ofText?_content_rename]

end Findings

/-! ## Plans -/

namespace Plan

@[simp] theorem step?_rename (plan : Plan) (reference : StepRef) :
    (plan.rename newName).step? (newName reference) =
      (plan.step? reference).map (Step.rename newName) :=
  stepIn?_rename newName plan.steps reference

@[simp] theorem othersWith_rename (plan : Plan) (step : StepRef) (except : SubplanId) :
    (plan.rename newName).othersWith (newName step) except =
      (plan.othersWith step except).map (Subplan.rename newName) := by
  simp only [othersWith, rename, List.filter_map, Function.comp_def, Subplan.has_rename]
  rfl

@[simp] theorem stepsOf_rename (plan : Plan) (subplan : Subplan) :
    (plan.rename newName).stepsOf (subplan.rename newName) =
      (plan.stepsOf subplan).map newName := by
  simp only [stepsOf, rename, List.filter_map, Function.comp_def, Subplan.has_rename]

end Plan

/-! ## Drafts -/

namespace Draft

def rename (draft : Draft) : Draft :=
  { draft with origins := draft.origins.relabel (.refl Handle) newName }

theorem addOrigin_rename (draft : Draft) (handle : Handle) (step : StepRef) :
    (draft.rename newName).addOrigin handle (newName step) =
      (draft.addOrigin handle step).rename newName := by
  have origins := draft.origins.putNew_relabel (.refl Handle) newName handle step
  exact congrArg (fun origins => { draft with origins := origins }) origins

variable (plan : Plan) (built : List Draft) (subplan : Subplan) (findings : Findings) (draft : Draft)
  (step : Step)

theorem keepExpression_rename (operands : List Operand) :
    keepExpression (findings.rename newName) (draft.rename newName) (step.rename newName) operands =
      (keepExpression findings draft step operands).map (Findings.rename newName)
        (rename newName) := by
  simp only [keepExpression, Prod.map, Findings.rename, Step.reference_rename, Step.operation_rename,
    Entries.put_relabel_id, addOrigin_rename]

theorem toOption_columnNamed_rename (name : String) :
    ((draft.rename newName).columnNamed (step.rename newName) name).toOption =
      (draft.columnNamed step name).toOption := by
  dsimp only [columnNamed, rename]
  split
  · rfl
  · split <;> rfl

theorem toOption_columnRead_rename (name : Argument) :
    ((draft.rename newName).columnRead (findings.rename newName) (subplan.rename newName)
        (step.rename newName) (name.rename newName)).toOption =
      (draft.columnRead findings subplan step name).toOption := by
  cases name with
  | literal value => exact toOption_columnNamed_rename newName draft step value.content
  | reference target =>
      simp only [Argument.rename, columnRead, Subplan.has_rename]
      split
      · rw [toOption_map, toOption_map, Findings.toOption_handle_rename]
      · rfl

theorem toOption_columnHandle_rename (column : String) :
    ((draft.rename newName).columnHandle (step.rename newName) column).toOption =
      (draft.columnHandle step column).toOption := by
  dsimp only [columnHandle, rename]
  cases draft.fields.get? column with
  | none => rfl
  | some origin =>
      by_cases exposed : column ∈ draft.select <;> simp [exposes, exposed]

theorem toOption_parentOf_rename (target : StepRef) :
    (parentOf (plan.rename newName) (subplan.rename newName) (step.rename newName)
        (newName target)).toOption =
      (parentOf plan subplan step target).toOption.map (Subplan.rename newName) := by
  have id : (subplan.rename newName).id = subplan.id := rfl
  unfold parentOf
  rw [id, Plan.othersWith_rename]
  match plan.othersWith target subplan.id with
  | [] | _ :: _ :: _ => rfl
  | [parent] =>
      have isRoot : (parent.rename newName).root = newName target ↔ parent.root = target :=
        newName.apply_eq_iff_eq _ _
      simp only [List.map_cons, List.map_nil, isRoot]
      split <;> rfl

/-- A retrieval finds the same, unless the name of a step is the name of an attribute of an entity. -/
theorem toOption_retrieve_rename
    (literal : ∀ target name rest, step.arguments = .reference target :: .reference name :: rest →
      findings.entities.get? target = none) :
    ((draft.rename newName).retrieve (plan.rename newName) (built.map (rename newName))
        (findings.rename newName) (subplan.rename newName) (step.rename newName)).toOption =
      (draft.retrieve plan built findings subplan step).toOption.map
        (Prod.map (fun handle => handle) (rename newName)) := by
  have entity (target : StepRef) :
      (findings.rename newName).entities.get? (newName target) = findings.entities.get? target := by
    simp [Findings.rename, Entries.get?_relabel]
  have isBuilt (parent : Subplan) :
      ((built.map (rename newName)).find? fun other => other.id = (parent.rename newName).id) =
        (built.find? fun other => other.id = parent.id).map (rename newName) := by
    simp only [List.find?_map, Function.comp_def]
    rfl
  unfold retrieve
  rw [Step.arguments_rename]
  rcases arguments : step.arguments with _ | ⟨⟨target⟩ | ⟨value⟩, _ | ⟨name, rest⟩⟩
  · rfl
  · rfl
  · simp only [List.map_cons, Argument.rename, Subplan.has_rename, entity]
    cases subplan.has target with
    | true =>
        cases known : findings.entities.get? target with
        | none => rfl
        | some entity =>
            cases name with
            | literal value => rfl
            | reference other =>
                rw [literal target other rest arguments] at known
                cases known
    | false =>
        refine toOption_bind_map (toOption_parentOf_rename newName plan subplan step target)
          fun parent _ => ?_
        rw [isBuilt]
        cases built.find? fun other => other.id = parent.id with
        | none => rfl
        | some other =>
            refine toOption_bind_same
              (toOption_columnRead_rename newName parent findings other step name) fun column => ?_
            exact toOption_bind_same (toOption_columnHandle_rename newName other step column)
              fun handle => rfl
  · rfl
  · rfl

/-! ## Returns -/

theorem foldl_rename {α : Type} {add : Draft → α → Draft}
    (same : ∀ draft item, add (rename newName draft) item = rename newName (add draft item))
    (items : List α) :
    items.foldl add (draft.rename newName) = (items.foldl add draft).rename newName :=
  List.foldl_hom (rename newName) same

theorem toOption_addPredicate_rename (predicate : Handle) :
    ((draft.rename newName).addPredicate (step.rename newName) predicate).toOption =
      (draft.addPredicate step predicate).toOption.map (rename newName) := by
  dsimp only [addPredicate, rename]
  split
  · split <;> rfl
  · split <;> rfl

theorem toOption_addClause_rename (target : StepRef) :
    (addClause (plan.rename newName) (findings.rename newName) (step.rename newName)
        (draft.rename newName) (newName target)).toOption =
      (addClause plan findings step draft target).toOption.map (rename newName) := by
  unfold addClause
  rw [Plan.step?_rename]
  cases plan.step? target with
  | none => rfl
  | some clause =>
      simp only [Option.map_some, Step.operation_rename]
      cases clause.operation.category with
      | predicate =>
          exact toOption_bind_same (findings.toOption_handle_rename newName step target)
            fun predicate => toOption_addPredicate_rename newName draft step predicate
      | sort =>
          have pairs : (findings.rename newName).sorts.get? (newName target) =
              findings.sorts.get? target := by
            simp [Findings.rename, Entries.get?_relabel]
          rw [pairs]
          exact congrArg some (foldl_rename newName draft (fun _ _ => rfl) _)
      | limit =>
          have limit : (findings.rename newName).limits.get? (newName target) =
              findings.limits.get? target := by
            simp [Findings.rename, Entries.get?_relabel]
          rw [limit]
          rfl
      | _ => rfl

theorem toOption_addReturn_rename :
    ((draft.rename newName).addReturn (plan.rename newName) (findings.rename newName)
        (step.rename newName)).toOption =
      (draft.addReturn plan findings step).toOption.map (rename newName) := by
  unfold addReturn
  rw [Step.references_rename]
  cases step.references with
  | nil => rfl
  | cons first clauses =>
      simp only [List.map_cons, Plan.step?_rename]
      cases plan.step? first with
      | none => rfl
      | some collect =>
          simp only [Option.map_some, Step.references_rename]
          refine toOption_bind_same (findings.toOption_handles_rename newName collect _)
            fun handles => ?_
          have returned : handles.foldl returnField (draft.rename newName) =
              (handles.foldl returnField draft).rename newName :=
            foldl_rename newName draft (fun _ _ => rfl) handles
          rw [returned]
          exact toOption_foldlM_map (fun _ => True)
            (fun draft target _ _ => toOption_addClause_rename newName plan findings draft step target)
            (fun _ _ _ _ _ _ => trivial) _ trivial

/-! ## Visits -/

theorem isNoGrouping_rename (target : StepRef) :
    isNoGrouping (plan.rename newName) (newName target) = isNoGrouping plan target := by
  unfold isNoGrouping
  rw [Plan.step?_rename]
  cases plan.step? target <;> rfl

theorem toOption_sortOf_rename :
    (sortOf (findings.rename newName) (step.rename newName)).toOption =
      (sortOf findings step).toOption := by
  unfold sortOf
  rw [Step.arguments_rename]
  match step.arguments with
  | [] | .literal _ :: _ => rfl
  | .reference target :: rest =>
      simp only [List.map_cons, Argument.rename, Findings.rename, Entries.get?_relabel,
        Option.map_id_fun, id_eq]
      cases findings.sorts.get? target <;> rfl

/-- The text of the one argument of an entity's retrieval and of a limit is a literal's. -/
theorem firstContent_rename (form : Step.HasForm step.operation step.arguments)
    (named : step.operation = .retrieveEntity ∨ step.operation = .limit) :
    firstContent (step.rename newName) = firstContent step := by
  have literal : ∃ value, step.arguments = [.literal value] := by
    generalize step.arguments = arguments at form
    rcases named with operation | operation
    · rw [operation] at form
      cases form with
      | entity value => exact ⟨value, rfl⟩
      | listing isListing => cases isListing
      | applied isApplied => cases isApplied
    · rw [operation] at form
      cases form with
      | limit value => exact ⟨value, rfl⟩
      | listing isListing => cases isListing
      | applied isApplied => cases isApplied
  obtain ⟨value, arguments⟩ := literal
  simp [firstContent, arguments, Argument.rename]

/-- A visit to a renamed step does the same. -/
theorem toOption_visit_rename (form : Step.HasForm step.operation step.arguments)
    (literal : step.operation = .retrieveAttribute → ∀ target name rest,
      step.arguments = .reference target :: .reference name :: rest →
      findings.entities.get? target = none) :
    (visit (plan.rename newName) (built.map (rename newName)) (subplan.rename newName)
        (findings.rename newName) (draft.rename newName) (step.rename newName)).toOption =
      (visit plan built subplan findings draft step).toOption.map
        (Prod.map (Findings.rename newName) (rename newName)) := by
  have applied (operands : List Operand) :
      (Except.ok (keepExpression (findings.rename newName) (draft.rename newName)
        (step.rename newName) operands) : Except Error (Findings × Draft)).toOption =
      (Except.ok (keepExpression findings draft step operands) :
        Except Error (Findings × Draft)).toOption.map
          (Prod.map (Findings.rename newName) (rename newName)) := by
    rw [keepExpression_rename]
    rfl
  unfold visit
  rw [Step.operation_rename, Step.arguments_rename, Step.references_rename, Step.reference_rename]
  cases category : step.operation.category with
  | retrieval =>
      by_cases entity : step.operation = .retrieveEntity
      · simp only [entity, if_true, firstContent_rename newName step form (.inl entity)]
        simp only [Findings.rename, Entries.put_relabel_id]
        rfl
      · have retrieval : step.operation = .retrieveAttribute := by
          revert category entity
          cases step.operation <;> simp [Operation.category]
        simp only [entity, if_false]
        refine toOption_bind_map (toOption_retrieve_rename newName plan built subplan findings draft
          step (literal retrieval)) fun read _ => ?_
        simp only [Findings.rename, Entries.put_relabel_id, Prod.map]
        rfl
  | predicate | arithmetic =>
      exact toOption_bind_same
        (findings.toOption_operands_rename newName step (fun _ => rfl) _) applied
  | analysis =>
      exact toOption_bind_same (findings.toOption_operands_rename newName step
        (isNoGrouping_rename newName plan) _) applied
  | aggregation =>
      refine toOption_bind_same (findings.toOption_handles_rename newName step _) fun handles => ?_
      rw [foldl_rename newName draft (fun _ _ => rfl) handles]
      rfl
  | rowNumber =>
      exact toOption_bind_same (toOption_sortOf_rename newName findings step) fun pairs => applied _
  | sort =>
      refine toOption_bind_same (findings.toOption_sortPairs_rename newName step _) fun pairs => ?_
      simp only [Findings.rename, Entries.put_relabel_id]
      rfl
  | limit =>
      have limit : step.operation = .limit := by
        revert category
        cases step.operation <;> simp [Operation.category]
      simp only [firstContent_rename newName step form (.inr limit)]
      cases Number.nat64? (firstContent step) with
      | none => rfl
      | some count =>
          simp only [Findings.rename, Entries.put_relabel_id]
          rfl
  | collect => rfl
  | output =>
      have isRoot : newName step.reference = (subplan.rename newName).root ↔
          step.reference = subplan.root := newName.apply_eq_iff_eq _ _
      simp only [isRoot]
      split
      · exact toOption_bind_map (toOption_addReturn_rename newName plan findings draft step)
          fun returned _ => rfl
      · rfl

end Draft

/-! ## Runs -/

/-- Whether a retrieval from the retrieval of an entity names the attribute by a reference. -/
def Plan.namesByReference (plan : Plan) (step : Step) : Bool :=
  match step.operation, step.arguments with
  | .retrieveAttribute, .reference target :: .reference _ :: _ =>
      (plan.step? target).any fun source => source.operation = .retrieveEntity
  | _, _ => false

def Findings.AreEntities (plan : Plan) (findings : Findings) : Prop :=
  ∀ target, (findings.entities.get? target).isSome = true →
    (plan.step? target).any (fun source => source.operation = .retrieveEntity) = true

/-- No entity is found where a retrieval reads that names the attribute by a reference. -/
theorem Findings.AreEntities.get?_eq_none {plan : Plan} {findings : Findings}
    (areEntities : findings.AreEntities plan) {step : Step}
    (literal : plan.namesByReference step = false) (retrieval : step.operation = .retrieveAttribute)
    {target name : StepRef} {rest : List Argument}
    (written : step.arguments = .reference target :: .reference name :: rest) :
    findings.entities.get? target = none := by
  simp only [Plan.namesByReference, retrieval, written] at literal
  rw [← Option.not_isSome_iff_eq_none]
  intro known
  rw [areEntities target known] at literal
  cases literal

namespace Draft

variable {plan : Plan} {built : List Draft} {subplan : Subplan}

theorem Visits.areEntities {findings after : Findings} {draft result : Draft} {step : Step}
    (visits : Visits plan built subplan findings draft step after result)
    (found : plan.step? step.reference = some step) (areEntities : findings.AreEntities plan) :
    after.AreEntities plan := by
  cases visits with
  | entity operation =>
      intro target known
      rcases Entries.isSome_get?_put.mp known with same | earlier
      · rw [← same, found]
        exact decide_eq_true operation
      · exact areEntities target earlier
  | _ => exact areEntities

theorem areEntities_visitRef {state after : Findings × Draft} {reference : StepRef}
    (areEntities : state.1.AreEntities plan)
    (visited : visitRef plan built subplan state reference = .ok after) :
    after.1.AreEntities plan := by
  obtain ⟨step, found, visits⟩ := exists_visits_of_visitRef visited
  obtain rfl := Plan.reference_of_step? found
  exact visits.areEntities found areEntities

theorem areEntities_buildNext {state after : Findings × List Draft}
    (areEntities : state.1.AreEntities plan) (next : buildNext plan state subplan = .ok after) :
    after.1.AreEntities plan := by
  obtain ⟨-, -, holds⟩ := buildNext_keeps_of_has (fun findings _ => findings.AreEntities plan)
    (fun _ _ _ _ _ found _ visits earlier => visits.areEntities found earlier) areEntities next
  exact holds

variable (forms : ∀ step ∈ plan.steps, Step.HasForm step.operation step.arguments)
  (literals : ∀ step ∈ plan.steps, plan.namesByReference step = false)

include forms literals

theorem toOption_visitRef_rename {state : Findings × Draft} (areEntities : state.1.AreEntities plan)
    (reference : StepRef) :
    (visitRef (plan.rename newName) (built.map (rename newName)) (subplan.rename newName)
        (state.map (Findings.rename newName) (rename newName)) (newName reference)).toOption =
      (visitRef plan built subplan state reference).toOption.map
        (Prod.map (Findings.rename newName) (rename newName)) := by
  unfold visitRef
  rw [Plan.step?_rename]
  cases found : plan.step? reference with
  | none => rfl
  | some step =>
      have member := List.mem_of_find?_eq_some found
      exact toOption_visit_rename newName plan built subplan state.1 state.2 step (forms step member)
        fun retrieval _ _ _ written =>
          areEntities.get?_eq_none (literals step member) retrieval written

theorem toOption_buildNext_rename {state : Findings × List Draft}
    (areEntities : state.1.AreEntities plan) :
    (buildNext (plan.rename newName) (state.map (Findings.rename newName) (List.map (rename newName)))
        (subplan.rename newName)).toOption =
      (buildNext plan state subplan).toOption.map
        (Prod.map (Findings.rename newName) (List.map (rename newName))) := by
  have run : (((plan.rename newName).stepsOf (subplan.rename newName)).foldlM
        (visitRef (plan.rename newName) (state.2.map (rename newName)) (subplan.rename newName))
        (state.1.rename newName, { id := (subplan.rename newName).id })).toOption =
      ((plan.stepsOf subplan).foldlM (visitRef plan state.2 subplan)
        (state.1, { id := subplan.id })).toOption.map
          (Prod.map (Findings.rename newName) (rename newName)) := by
    rw [Plan.stepsOf_rename]
    refine toOption_foldlM_map (f := Prod.map (Findings.rename newName) (rename newName))
      (fun current => current.1.AreEntities plan) ?_ ?_ (state.1, { id := subplan.id }) areEntities
    · intro current reference _ earlier
      exact toOption_visitRef_rename newName forms literals earlier reference
    · exact fun current reference _ after => areEntities_visitRef
  refine toOption_bind_map run fun built _ => ?_
  simp only [toOption_ok, Option.map_some, Prod.map, List.map_append, List.map_singleton]

end Draft

/-- A renamed plan has the renamed drafts. -/
theorem Plan.toOption_drafts_rename {plan : Plan}
    (forms : ∀ step ∈ plan.steps, Step.HasForm step.operation step.arguments)
    (literals : ∀ step ∈ plan.steps, plan.namesByReference step = false) :
    (plan.rename newName).drafts.toOption =
      plan.drafts.toOption.map (List.map (Draft.rename newName)) := by
  have run : ((plan.rename newName).subplans.foldlM (Draft.buildNext (plan.rename newName))
        ({}, [])).toOption =
      (plan.subplans.foldlM (Draft.buildNext plan) ({}, [])).toOption.map
        (Prod.map (Findings.rename newName) (List.map (Draft.rename newName))) := by
    refine toOption_foldlM_map
      (f := Prod.map (Findings.rename newName) (List.map (Draft.rename newName)))
      (fun state => state.1.AreEntities plan) ?_ ?_ ({}, []) nofun
    · intro state subplan _ areEntities
      exact Draft.toOption_buildNext_rename newName forms literals areEntities
    · intro state subplan _ after areEntities next
      exact Draft.areEntities_buildNext areEntities next
  rw [drafts, drafts, toOption_map, toOption_map, run, Option.map_map, Option.map_map]
  rfl

end SemanticQuery
