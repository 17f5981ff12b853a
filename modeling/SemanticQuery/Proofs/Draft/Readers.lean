import SemanticQuery.Proofs.Draft.Coverage

/-!
# How steps are taken

A step takes each step that it depends on in one of four ways: by what was found for it, by listing it,
by what it lists, or by reading a column of its subplan.  Nothing is found for collect and return steps.
So what a collect step lists is found, since the step ends up in a return step; and a return step that is
not the terminal one is read by a retrieval, which makes its subplan a source of another one.
-/

namespace SemanticQuery

/-- Something can be found for a step: it is no collect or return step. -/
def Plan.IsFindable (plan : Plan) (reference : StepRef) : Prop :=
  ∃ step, plan.step? reference = some step ∧ step.operation ≠ .collect ∧ step.operation ≠ .output

theorem Plan.isFindable_of_category {plan : Plan} {reference : StepRef} {step : Step}
    (found : plan.step? reference = some step) (noCollect : step.operation.category ≠ .collect)
    (noOutput : step.operation.category ≠ .output) : plan.IsFindable reference := by
  refine ⟨step, found, fun collect => noCollect ?_, fun output => noOutput ?_⟩
  · rw [collect]
    rfl
  · rw [output]
    rfl

theorem Plan.IsFindable.of_found {plan : Plan} {reference : StepRef}
    (isFindable : plan.IsFindable reference) {step : Step} (found : plan.step? reference = some step) :
    step.operation ≠ .collect ∧ step.operation ≠ .output := by
  obtain ⟨other, isOther, neither⟩ := isFindable
  cases found.symm.trans isOther
  exact neither

/-- How a step takes one that it depends on, given the draft of its subplan. -/
inductive Draft.Takes (plan : Plan) (draft : Draft) (step : Step) (target : StepRef) : Prop where
  /-- By what was found for it. -/
  | found (isFindable : plan.IsFindable target)
  /-- A collect step lists it. -/
  | listed (operation : step.operation = .collect)
  /-- It is a collect step, and what was found for the steps that it lists is returned. -/
  | returned {collect : Step} (isCollect : plan.step? target = some collect)
      (operation : collect.operation = .collect)
      (each : ∀ reference ∈ collect.references, plan.IsFindable reference)
  /-- It is the root of another subplan, which becomes a source. -/
  | derived {parent : Subplan} (parentListed : parent ∈ plan.subplans) (isRoot : parent.root = target)
      (source : .subplan parent.id ∈ draft.sources)

/-! ## Dependencies -/

namespace Step.HasForm

variable {step : Step}

theorem dependencies_eq_nil (form : HasForm step.operation step.arguments)
    (literal : step.operation = .retrieveEntity ∨ step.operation = .limit) :
    step.dependencies = [] := by
  obtain ⟨reference, operation, arguments⟩ := step
  rcases literal with rfl | rfl
  · cases form with
    | entity name => rfl
    | listing impossible | applied impossible => cases impossible
  · cases form with
    | limit count => rfl
    | listing impossible | applied impossible => cases impossible

/-- Retrievals and row numbers depend on the step that their first argument refers to. -/
theorem dependencies_eq_singleton (form : HasForm step.operation step.arguments)
    (category : step.operation.category = .retrieval ∨ step.operation.category = .rowNumber)
    {first : StepRef} (isFirst : step.arguments.head? = some (.reference first)) :
    step.dependencies = [first] := by
  have operation : step.operation = .retrieveEntity ∨ step.operation = .retrieveAttribute ∨
      step.operation = .rowNumber := by
    revert category
    cases step.operation <;> decide
  obtain ⟨reference, _, arguments⟩ := step
  rcases operation with rfl | rfl | rfl
  · cases form with
    | entity name => cases isFirst
    | listing impossible | applied impossible => cases impossible
  · cases form with
    | retrieval target name =>
        cases isFirst
        rfl
    | listing impossible | applied impossible => cases impossible
  · cases form with
    | rowNumber target =>
        cases isFirst
        rfl
    | listing impossible | applied impossible => cases impossible

end Step.HasForm

/-! ## What was found -/

namespace Findings

variable {plan : Plan} {findings : Findings} {step : Step} {target : StepRef}

def AreFindable (plan : Plan) (findings : Findings) : Prop :=
  ∀ reference, findings.Knows reference → plan.IsFindable reference

theorem AreFindable.of_handle (known : findings.AreFindable plan) {handle : Handle}
    (read : findings.handle step target = .ok handle) : plan.IsFindable target :=
  known target (.inl (by simp [eq_some_of_handle read]))

/-- Operands are read for all references that are included. -/
theorem AreFindable.of_operands (known : findings.AreFindable plan) {included : StepRef → Bool}
    {arguments : List Argument} {operands : List Operand}
    (read : findings.operands step included arguments = .ok operands)
    (member : target ∈ arguments.filterMap Argument.reference?) (isIncluded : included target = true) :
    plan.IsFindable target := by
  induction arguments generalizing operands with
  | nil => cases member
  | cons argument rest ih =>
      cases argument with
      | literal value =>
          rw [Findings.operands] at read
          obtain ⟨others, othersRead, -⟩ := bind_eq_ok_iff.mp read
          exact ih othersRead member
      | reference first =>
          rw [Findings.operands] at read
          rcases List.mem_cons.mp member with rfl | later
          · rw [if_pos isIncluded] at read
            obtain ⟨handle, found, -⟩ := bind_eq_ok_iff.mp read
            exact known.of_handle found
          · split at read
            · obtain ⟨_, -, read⟩ := bind_eq_ok_iff.mp read
              obtain ⟨others, othersRead, -⟩ := bind_eq_ok_iff.mp read
              exact ih othersRead later
            · exact ih read later

end Findings

/-! ## Visits -/

namespace Draft

variable {plan : Plan} {built : List Draft} {subplan : Subplan} {findings after : Findings}
  {draft result : Draft} {step : Step} {target : StepRef}

theorem Takes.mono (takes : Takes plan draft step target) (grown : draft.sources ⊆ result.sources) :
    Takes plan result step target := by
  cases takes with
  | found isFindable => exact .found isFindable
  | listed operation => exact .listed operation
  | returned isCollect operation each => exact .returned isCollect operation each
  | derived parentListed isRoot source => exact .derived parentListed isRoot (grown source)

theorem Visits.areFindable (visits : Visits plan built subplan findings draft step after result)
    (found : plan.step? step.reference = some step) (known : findings.AreFindable plan) :
    after.AreFindable plan := by
  intro reference knows
  rcases visits.knows_cases knows with earlier | ⟨rfl, neither⟩
  · exact known reference earlier
  · exact ⟨step, found, neither⟩

/-- The clauses of a return step are steps for which something can be found. -/
theorem isFindable_of_addClause (added : addClause plan findings step draft target = .ok result) :
    plan.IsFindable target := by
  obtain ⟨clause, found, -, takes⟩ := exists_takesClause added
  cases takes with
  | predicate category | sort category | limit category =>
      exact Plan.isFindable_of_category found (by simp [category]) (by simp [category])

/-- A return step takes what its collect step lists, and its clauses. -/
theorem takes_of_addReturn (known : findings.AreFindable plan)
    (collects : ∀ target ∈ step.references.head?, ∀ collect, plan.step? target = some collect →
      collect.operation = .collect)
    (returned : draft.addReturn plan findings step = .ok result) :
    ∀ target ∈ step.references, Takes plan result step target := by
  obtain ⟨first, clauses, collect, handles, references, isCollect, read, run⟩ :=
    exists_of_addReturn returned
  have findable : ∀ target ∈ clauses, plan.IsFindable target := by
    refine foldlM_keeps_prefix
      (fun before (_ : Draft) => ∀ target ∈ before, plan.IsFindable target) ?_ nofun run
    intro before target later state after _ holds added other member
    rcases List.mem_append.mp member with earlier | last
    · exact holds other earlier
    · exact List.mem_singleton.mp last ▸ isFindable_of_addClause added
  rw [references]
  refine List.forall_mem_cons.mpr ⟨?_, fun target member => .found (findable target member)⟩
  refine .returned isCollect (collects first (by simp [references]) collect isCollect) ?_
  intro reference listed
  obtain ⟨handle, -, found⟩ := exists_result_of_mem_mapM read listed
  exact known.of_handle found

/-- A visit to a step takes what the step depends on. -/
theorem Visits.takes (visits : Visits plan built subplan findings draft step after result)
    (arranged : plan.IsArranged) (belongs : plan.Belongs subplan step)
    (known : findings.AreFindable plan) (reads : target ∈ step.dependencies) :
    Takes plan result step target := by
  have member := List.mem_of_find?_eq_some belongs.found
  have form := arranged.forms step member
  have references (other : step.operation.category ≠ .retrieval) : target ∈ step.references := by
    rwa [← Step.dependencies_eq_of_category other]
  cases visits with
  | entity operation =>
      rw [form.dependencies_eq_nil (.inl operation)] at reads
      cases reads
  | retrieval category read =>
      obtain ⟨first, isFirst, found⟩ := retrieve_cases read
      rw [form.dependencies_eq_singleton (.inl category) isFirst, List.mem_singleton] at reads
      subst reads
      rcases found with ⟨entity, name, -, isKnown, -, -⟩ |
        ⟨parent, listed, isRoot, other, -, sameId, column, -, origin, -, -, rfl⟩
      · exact .found (known target (.inr (.inl (by simp [isKnown]))))
      · exact .derived listed isRoot (sameId ▸ mem_addNew.mpr (.inr rfl))
  | operation category read =>
      have listed := references (by rcases category with category | category <;> simp [category])
      exact .found (known.of_operands read listed rfl)
  | analysis category read =>
      have listed := references (by simp [category])
      cases included : isNoGrouping plan target with
      | true => exact .found (known.of_operands read listed included)
      | false =>
          unfold isNoGrouping at included
          split at included
          · rename_i grouping isGrouping
            have category : grouping.operation.category = .aggregation := by simpa using included
            exact .found (Plan.isFindable_of_category isGrouping (by simp [category])
              (by simp [category]))
          · cases included
  | rowNumber category read =>
      obtain ⟨first, isFirst, found⟩ := exists_of_sortOf read
      rw [form.dependencies_eq_singleton (.inr category) isFirst, List.mem_singleton] at reads
      subst reads
      exact .found (known target (.inr (.inr (by simp [found]))))
  | groupBy category read =>
      obtain ⟨handle, -, found⟩ := exists_result_of_mem_mapM read (references (by simp [category]))
      exact .found (known.of_handle found)
  | sort category read =>
      have operation : step.operation = .sort := Operation.eq_of_category category (by decide)
      obtain ⟨keys, areKeys⟩ := arranged.areKeys member operation
      have listed := references (by simp [category])
      rw [Step.references, areKeys.references_eq] at listed
      obtain ⟨key, isKey, rfl⟩ := List.mem_map.mp listed
      rw [Findings.sortPairs_eq_mapM areKeys] at read
      obtain ⟨pair, -, found⟩ := exists_result_of_mem_mapM read isKey
      obtain ⟨handle, isHandle, -⟩ := map_eq_ok_iff.mp found
      exact .found (known.of_handle isHandle)
  | limit category read =>
      have operation : step.operation = .limit := Operation.eq_of_category category (by decide)
      rw [form.dependencies_eq_nil (.inr operation)] at reads
      cases reads
  | collect category => exact .listed (Operation.eq_of_category category (by decide))
  | inner category other =>
      have output : step.operation = .output := Operation.eq_of_category category (by decide)
      exact (other (arranged.eq_root_of_isOutput belongs.listed member belongs.holds
        (decide_eq_true output))).elim
  | root category isRoot returned =>
      have output : step.operation = .output := Operation.eq_of_category category (by decide)
      have collects := belongs.divided.collects step member output
      exact takes_of_addReturn known collects returned target (references (by simp [category]))

/-! ## Runs -/

def TakesAll (plan : Plan) (draft : Draft) (references : List StepRef) : Prop :=
  ∀ step ∈ plan.steps, step.reference ∈ references →
    ∀ target ∈ step.dependencies, Takes plan draft step target

theorem takesAll_visitRef (arranged : plan.IsArranged) (listed : subplan ∈ plan.subplans)
    {state after : Findings × Draft} {reference : StepRef} (holds : subplan.has reference = true)
    (known : state.1.AreFindable plan) {before : List StepRef}
    (takes : TakesAll plan state.2 before)
    (run : visitRef plan built subplan state reference = .ok after) :
    after.1.AreFindable plan ∧ TakesAll plan after.2 (before ++ [reference]) := by
  obtain ⟨step, found, visits⟩ := exists_visits_of_visitRef run
  obtain rfl := Plan.reference_of_step? found
  refine ⟨visits.areFindable found known, ?_⟩
  intro other member isListed target reads
  rcases List.mem_append.mp isListed with earlier | last
  · exact (takes other member earlier target reads).mono visits.subset_sources
  · have same := arranged.step?_reference member
    rw [List.mem_singleton.mp last, found] at same
    cases same
    exact visits.takes arranged ⟨arranged.divided, listed, found, holds⟩ known reads

theorem takesAll_buildNext (arranged : plan.IsArranged) (listed : subplan ∈ plan.subplans)
    {state after : Findings × List Draft} (known : state.1.AreFindable plan)
    (next : buildNext plan state subplan = .ok after) :
    after.1.AreFindable plan ∧
      ∃ draft, after.2 = state.2 ++ [draft] ∧ TakesAll plan draft (plan.stepsOf subplan) := by
  obtain ⟨⟨findings, draft⟩, run, same⟩ := bind_eq_ok_iff.mp next
  cases same
  obtain ⟨areFindable, takes⟩ := foldlM_keeps_prefix
    (fun before (pair : Findings × Draft) =>
      pair.1.AreFindable plan ∧ TakesAll plan pair.2 before)
    (fun before reference later state after whole holds run => by
      have member : reference ∈ plan.stepsOf subplan := by simp [whole]
      exact takesAll_visitRef arranged listed (List.mem_filter.mp member).2 holds.1 holds.2 run)
    ⟨known, nofun⟩ run
  exact ⟨areFindable, draft, rfl, takes⟩

end Draft

namespace Plan

variable {plan : Plan} {drafts : List Draft}

/-- Every step takes what it depends on, as the draft of its subplan says. -/
theorem IsArranged.exists_takes (arranged : plan.IsArranged) (drafted : plan.drafts = .ok drafts)
    {step : Step} (member : step ∈ plan.steps) :
    ∃ draft ∈ drafts, ∀ target ∈ step.dependencies, draft.Takes plan step target := by
  obtain ⟨⟨findings, built⟩, run, rfl⟩ := map_eq_ok_iff.mp drafted
  have start : Findings.AreFindable plan {} := by
    rintro reference (known | known | known) <;> cases known
  obtain ⟨-, taken⟩ := foldlM_keeps_prefix
    (fun visited (state : Findings × List Draft) => state.1.AreFindable plan ∧
      ∀ subplan ∈ visited, ∃ draft ∈ state.2, draft.TakesAll plan (plan.stepsOf subplan))
    (fun visited subplan later state after whole holds run => by
      obtain ⟨known, draft, drafts, takes⟩ :=
        Draft.takesAll_buildNext arranged (by simp [whole]) holds.1 run
      refine ⟨known, fun other isVisited => ?_⟩
      rw [drafts]
      rcases List.mem_append.mp isVisited with earlier | last
      · obtain ⟨found, isBuilt, takesAll⟩ := holds.2 other earlier
        exact ⟨found, List.mem_append_left _ isBuilt, takesAll⟩
      · rw [List.mem_singleton.mp last]
        exact ⟨draft, List.mem_append_right _ List.mem_cons_self, takes⟩) ⟨start, nofun⟩ run
  obtain ⟨subplan, ⟨listed, holds⟩, -⟩ := arranged.decomposed.onePlace step member
  obtain ⟨draft, isBuilt, takes⟩ := taken subplan listed
  exact ⟨draft, isBuilt, takes step member (arranged.mem_stepsOf listed holds)⟩

theorem IsArranged.operation_of_root (arranged : plan.IsArranged) {subplan : Subplan}
    (listed : subplan ∈ plan.subplans) {step : Step} (found : plan.step? subplan.root = some step) :
    step.operation = .output := by
  obtain ⟨root, member, isRoot, output⟩ :=
    (arranged.decomposed.mem_roots_iff _).mp (List.mem_map_of_mem listed)
  rw [← isRoot, arranged.step?_reference member] at found
  exact Option.some.inj found ▸ of_decide_eq_true output

/-- What a collect step lists can be found.  On the way to the terminal step, a collect step is taken by
a return step or listed by another collect step, which would have to find it. -/
theorem isFindable_of_collect {raw : Entries String String} (parsed : parse raw = .ok plan)
    (drafted : plan.drafts = .ok drafts) {start : StepRef}
    (leads : Relation.ReflTransGen plan.graph.Edge start plan.terminal) {step : Step}
    (found : plan.step? start = some step) (collect : step.operation = .collect) :
    ∀ reference ∈ step.references, plan.IsFindable reference := by
  have arranged := isArranged_of_parse parsed
  induction leads using Relation.ReflTransGen.head_induction_on generalizing step with
  | refl =>
      have output := (isRooted_of_parse parsed).output
      rw [step?, stepIn?] at found
      rw [Subplan.isOutputIn, found, Option.any_some, Step.isOutput, collect] at output
      cases output
  | @head start child edge _ ih =>
      obtain ⟨reader, member, rfl, reads⟩ := exists_step_of_edge parsed edge
      obtain ⟨draft, -, takes⟩ := arranged.exists_takes drafted member
      cases takes start reads with
      | found isFindable => exact absurd collect (isFindable.of_found found).1
      | listed operation =>
          have references : reader.dependencies = reader.references :=
            Step.dependencies_eq_references (by simp [operation])
          have isFindable :=
            ih (arranged.step?_reference member) operation start (references ▸ reads)
          exact absurd collect (isFindable.of_found found).1
      | returned isCollect _ each =>
          cases found.symm.trans isCollect
          exact each
      | derived parentListed isRoot =>
          rw [← isRoot] at found
          rw [arranged.operation_of_root parentListed found] at collect
          cases collect

/-- A subplan whose root is not the terminal step is a source of another one. -/
theorem exists_draft_of_root_ne {raw : Entries String String} (parsed : parse raw = .ok plan)
    (drafted : plan.drafts = .ok drafts) {subplan : Subplan} (listed : subplan ∈ plan.subplans)
    (inner : subplan.root ≠ plan.terminal) :
    ∃ draft ∈ drafts, .subplan subplan.id ∈ draft.sources := by
  have arranged := isArranged_of_parse parsed
  have rooted := isRooted_of_parse parsed
  obtain ⟨root, isStep, isRoot, -⟩ :=
    (arranged.decomposed.mem_roots_iff _).mp (List.mem_map_of_mem listed)
  have found : plan.step? subplan.root = some root := isRoot ▸ arranged.step?_reference isStep
  have output := arranged.operation_of_root listed found
  rcases Relation.ReflTransGen.cases_head (rooted.leads root isStep) with same | ⟨child, edge, path⟩
  · exact absurd (isRoot.symm.trans same) inner
  · obtain ⟨reader, member, rfl, reads⟩ := exists_step_of_edge parsed edge
    obtain ⟨draft, isBuilt, takes⟩ := arranged.exists_takes drafted member
    rw [isRoot] at reads
    cases takes _ reads with
    | found isFindable => exact absurd output (isFindable.of_found found).2
    | listed operation =>
        have references : reader.dependencies = reader.references :=
          Step.dependencies_eq_references (by simp [operation])
        have isFindable := isFindable_of_collect parsed drafted path
          (arranged.step?_reference member) operation _ (references ▸ reads)
        exact absurd output (isFindable.of_found found).2
    | returned isCollect operation =>
        cases found.symm.trans isCollect
        rw [operation] at output
        cases output
    | @derived parent parentListed sameRoot source =>
        cases arranged.eq_of_root_eq parentListed listed sameRoot
        exact ⟨draft, isBuilt, source⟩

end Plan

end SemanticQuery
