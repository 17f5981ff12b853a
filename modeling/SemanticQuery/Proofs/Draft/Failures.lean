import SemanticQuery.Proofs.Draft.Coverage

/-!
# The failures of drafting

Of the failures that drafting can report, a plan that was read leaves those that the plan itself has to
answer for.  What is wrong with the structure of a plan is reported when it is read, so drafting finds
every parent subplan, takes all arguments by their form and meets every field after it was found.
-/

namespace SemanticQuery

inductive Plan.LacksField (plan : Plan) (step : Step) (target : StepRef) : Prop where
  /-- The other step stands for no field. -/
  | noField (other : Step) (found : plan.step? target = some other)
      (fieldless : other.operation ∈ Operation.fieldless)
  /-- An attribute of another subplan is named by a step outside of that subplan. -/
  | outside (subplan parent : Subplan) (listed : subplan ∈ plan.subplans)
      (holds : subplan.has step.reference = true) (parentListed : parent ∈ plan.subplans)
      (differ : parent ≠ subplan) (operation : step.operation = .retrieveAttribute)
      (arguments : step.arguments = [.reference parent.root, .reference target])
      (outside : parent.has target = false)

inductive Plan.DraftFailure (plan : Plan) : Error → Prop where
  | notAnEntity (step : Step) (target : StepRef) :
      DraftFailure plan (.notAnEntity step.reference.text target.text)
  | unresolved {step : Step} (member : step ∈ plan.steps) {target : StepRef}
      (lacks : plan.LacksField step target) : DraftFailure plan (Findings.unresolved step target)
  | columnNotExposed (step : Option String) (subplan column : String) :
      DraftFailure plan (.columnNotExposed step subplan column)
  | ambiguousColumn (step subplan column : String) (candidates : List String) :
      DraftFailure plan (.ambiguousColumn step subplan column candidates)
  | unsupportedReturnArgument (step argument category : String) :
      DraftFailure plan (.unsupportedReturnArgument step argument category)
  | duplicateReturnClause (step clause : String) :
      DraftFailure plan (.duplicateReturnClause step clause)
  | limit {step : Step} (member : step ∈ plan.steps) (operation : step.operation = .limit)
      (unread : Number.nat64? (Draft.firstContent step) = none) :
      DraftFailure plan (.invariant
        s!"limit step {step.reference.text} is not a non-negative integer")

namespace Draft

variable {plan : Plan} {built : List Draft} {subplan : Subplan} {findings : Findings}
  {draft : Draft} {step : Step} {error : Error}

/-- What a visit to a step can rely on. -/
structure IsPrepared (plan : Plan) (built : List Draft) (subplan : Subplan) (findings : Findings)
    (step : Step) : Prop where
  arranged : plan.IsArranged
  listed : subplan ∈ plan.subplans
  member : step ∈ plan.steps
  holds : subplan.has step.reference = true
  /-- What the step depends on was visited, unless it is a return step. -/
  covered : findings.Cover plan step.dependencies
  /-- So was what these steps depend on. -/
  deepCovered : ∀ target ∈ step.dependencies, ∀ other, plan.step? target = some other →
    other.isOutput = false → findings.Cover plan other.dependencies
  /-- What the step reads outside its subplan is the root of a subplan that was drafted. -/
  parents : ∀ target ∈ step.dependencies, subplan.has target = false →
    ∃ parent ∈ plan.subplans, parent ≠ subplan ∧ parent.root = target ∧
      plan.othersWith target subplan.id = [parent] ∧ (∃ other ∈ built, other.id = parent.id) ∧
      findings.Cover plan (plan.stepsOf parent)

namespace IsPrepared

/-- A reference whose target was covered is missed only if the target stands for no field. -/
theorem failure_of_handle {other found : Step} (member : other ∈ plan.steps)
    {visited : List StepRef} (covered : findings.Cover plan visited) {target : StepRef}
    (listed : target ∈ visited) (isFound : plan.step? target = some found) :
    FailsOnly plan.DraftFailure (findings.handle other target) := by
  intro error failed
  obtain ⟨rfl, fieldless⟩ := covered.fieldless_of_handle listed isFound failed
  exact .unresolved member (.noField found isFound fieldless)

theorem failure_of_reads (arranged : plan.IsArranged) {other : Step} (member : other ∈ plan.steps)
    (covered : findings.Cover plan other.dependencies) {target : StepRef}
    (reads : target ∈ other.dependencies) :
    FailsOnly plan.DraftFailure (findings.handle other target) := by
  obtain ⟨found, isFound⟩ := arranged.exists_step_of_reads member reads
  exact failure_of_handle member covered reads isFound

theorem failure_of_references (prepared : IsPrepared plan built subplan findings step)
    (category : step.operation.category ≠ .retrieval) {target : StepRef}
    (listed : target ∈ step.references) :
    FailsOnly plan.DraftFailure (findings.handle step target) := by
  rw [← Step.dependencies_eq_of_category category] at listed
  exact failure_of_reads prepared.arranged prepared.member prepared.covered listed

theorem parentOf_eq_ok (prepared : IsPrepared plan built subplan findings step) {target : StepRef}
    (reads : target ∈ step.dependencies) (outside : subplan.has target = false) :
    ∃ parent ∈ plan.subplans, parent ≠ subplan ∧ parent.root = target ∧
      parentOf plan subplan step target = .ok parent ∧ (∃ other ∈ built, other.id = parent.id) ∧
      findings.Cover plan (plan.stepsOf parent) := by
  obtain ⟨parent, listed, differ, isRoot, only, isBuilt, covered⟩ :=
    prepared.parents target reads outside
  refine ⟨parent, listed, differ, isRoot, ?_, isBuilt, covered⟩
  unfold parentOf
  rw [only]
  exact if_pos isRoot

theorem failure_of_columnNamed (name : String) :
    FailsOnly plan.DraftFailure (draft.columnNamed step name) := by
  unfold columnNamed
  split
  · exact FailsOnly.ok _
  · split
    · exact FailsOnly.ok _
    · exact FailsOnly.ok _
    · exact FailsOnly.error_iff.mpr (.ambiguousColumn _ _ _ _)

theorem failure_of_columnHandle (column : String) :
    FailsOnly plan.DraftFailure (draft.columnHandle step column) := by
  unfold columnHandle
  split
  · split
    · exact FailsOnly.ok _
    · exact FailsOnly.error_iff.mpr (.columnNotExposed _ _ _)
  · exact FailsOnly.error_iff.mpr (.columnNotExposed _ _ _)

/-- The column that a retrieval names is not told apart from others, stands for no field, or is named
by a step outside of the subplan that is read. -/
theorem failure_of_columnRead (prepared : IsPrepared plan built subplan findings step)
    (operation : step.operation = .retrieveAttribute) {parent : Subplan}
    (listed : parent ∈ plan.subplans) (differ : parent ≠ subplan)
    (covered : findings.Cover plan (plan.stepsOf parent)) {name : Argument}
    (written : step.arguments = [.reference parent.root, name]) :
    FailsOnly plan.DraftFailure (draft.columnRead findings parent step name) := by
  cases name with
  | literal value => exact failure_of_columnNamed value.content
  | reference inner =>
      unfold columnRead
      dsimp only
      split
      · rename_i inside
        obtain ⟨found, isFound⟩ := prepared.arranged.exists_step_of_node
          (prepared.arranged.mem_nodes_of_has listed inside)
        have visited := prepared.arranged.mem_stepsOf listed inside
        exact (failure_of_handle prepared.member covered visited isFound).map _
      · rename_i outside
        rw [Bool.not_eq_true] at outside
        exact FailsOnly.error_iff.mpr (.unresolved prepared.member
          (.outside subplan parent prepared.listed prepared.holds listed differ operation written
            outside))

theorem failure_of_retrieve (prepared : IsPrepared plan built subplan findings step)
    (operation : step.operation = .retrieveAttribute) :
    FailsOnly plan.DraftFailure (draft.retrieve plan built findings subplan step) := by
  obtain ⟨target, name, written⟩ :=
    (prepared.arranged.forms step prepared.member).exists_retrieval operation
  have reads : target ∈ step.dependencies := by
    simp [Step.dependencies, operation, written, Argument.reference?]
  unfold retrieve
  rw [written]
  dsimp only
  split
  · split
    · exact FailsOnly.ok _
    · exact FailsOnly.error_iff.mpr (.notAnEntity _ _)
  · rename_i outside
    rw [Bool.not_eq_true] at outside
    obtain ⟨parent, listed, differ, isRoot, isParent, ⟨other, isOther, sameId⟩, covered⟩ :=
      prepared.parentOf_eq_ok reads outside
    rw [isParent]
    refine FailsOnly.bind (FailsOnly.ok parent) ?_
    rintro _ ⟨⟩
    split
    · rename_i missing
      have different := List.find?_eq_none.mp missing other isOther
      simp [sameId] at different
    · refine FailsOnly.bind ?_ fun column _ => ?_
      · exact prepared.failure_of_columnRead operation listed differ covered
          (by rw [written, isRoot])
      · exact FailsOnly.bind (failure_of_columnHandle column) fun _ _ => FailsOnly.ok _

theorem failure_of_addPredicate (predicate : Handle) :
    FailsOnly plan.DraftFailure (draft.addPredicate step predicate) := by
  unfold addPredicate
  split
  · split
    · exact FailsOnly.error_iff.mpr (.duplicateReturnClause _ _)
    · exact FailsOnly.ok _
  · split
    · exact FailsOnly.error_iff.mpr (.duplicateReturnClause _ _)
    · exact FailsOnly.ok _

theorem failure_of_addClause (prepared : IsPrepared plan built subplan findings step)
    {target : StepRef} (reads : target ∈ step.dependencies) :
    FailsOnly plan.DraftFailure (addClause plan findings step draft target) := by
  obtain ⟨clause, found⟩ := prepared.arranged.exists_step_of_reads prepared.member reads
  unfold addClause
  rw [found]
  dsimp only
  split
  · refine FailsOnly.bind ?_ fun predicate _ => failure_of_addPredicate predicate
    exact failure_of_reads prepared.arranged prepared.member prepared.covered reads
  · exact FailsOnly.ok _
  · exact FailsOnly.ok _
  · exact FailsOnly.error_iff.mpr (.unsupportedReturnArgument _ _ _)

theorem failure_of_addReturn (prepared : IsPrepared plan built subplan findings step)
    (operation : step.operation = .output) :
    FailsOnly plan.DraftFailure (draft.addReturn plan findings step) := by
  have references : step.dependencies = step.references :=
    Step.dependencies_eq_references (by simp [operation])
  have form := prepared.arranged.forms step prepared.member
  rw [operation] at form
  generalize written : step.arguments = arguments at form
  cases form with
  | applied impossible => cases impossible
  | listing _ first rest =>
      have listed : step.references = first :: rest := by
        simp [Step.references, written, List.filterMap_map, Function.comp_def, Argument.reference?]
      have reads : first ∈ step.dependencies := by simp [references, listed]
      obtain ⟨collect, found⟩ := prepared.arranged.exists_step_of_reads prepared.member reads
      have isCollect : collect.operation = .collect :=
        prepared.arranged.divided.collects step prepared.member operation first (by simp [listed])
          collect found
      have collectMember := List.mem_of_find?_eq_some found
      have covered := prepared.deepCovered first reads collect found
        (by simp [Step.isOutput, isCollect])
      have collectReferences : collect.dependencies = collect.references :=
        Step.dependencies_eq_references (by simp [isCollect])
      unfold addReturn
      rw [listed]
      dsimp only
      rw [found]
      refine FailsOnly.bind (FailsOnly.mapM fun target member => ?_) fun handles _ => ?_
      · exact failure_of_reads prepared.arranged collectMember covered (collectReferences ▸ member)
      · refine FailsOnly.foldlM (fun draft target member => ?_) _
        exact prepared.failure_of_addClause (by simp [references, listed, member])

/-- A step that numbers rows finds the keys of its sort. -/
theorem sortOf_ne_error (prepared : IsPrepared plan built subplan findings step)
    (operation : step.operation = .rowNumber) : sortOf findings step ≠ .error error := by
  have references : step.dependencies = step.references :=
    Step.dependencies_eq_references (by simp [operation])
  have form := prepared.arranged.forms step prepared.member
  rw [operation] at form
  generalize written : step.arguments = arguments at form
  cases form with
  | listing impossible | applied impossible => cases impossible
  | rowNumber target =>
      have reads : target ∈ step.dependencies := by
        simp [references, Step.references, written, Argument.reference?]
      obtain ⟨other, found⟩ := prepared.arranged.exists_step_of_reads prepared.member reads
      have isSort : other.operation = .sort :=
        prepared.arranged.targets step prepared.member .sort (by rw [operation]; rfl) target
          (by rw [written]; rfl) other found
      obtain ⟨keys, isKeys⟩ :=
        Option.isSome_iff_exists.mp ((prepared.covered target reads other found).2 isSort)
      simp [sortOf, written, isKeys]

/-- A visit to a step that is prepared fails only as drafting can. -/
theorem failure_of_visit (prepared : IsPrepared plan built subplan findings step) :
    FailsOnly plan.DraftFailure (visit plan built subplan findings draft step) := by
  have operands {included : StepRef → Bool} (other : step.operation.category ≠ .retrieval) :
      FailsOnly plan.DraftFailure (findings.operands step included step.arguments) :=
    Findings.failsOnly_operands fun target listed => prepared.failure_of_references other listed
  unfold visit
  split
  · rename_i category
    split
    · exact FailsOnly.ok _
    · rename_i other
      have operation : step.operation = .retrieveAttribute := by
        revert category other
        cases step.operation <;> decide
      exact FailsOnly.bind (prepared.failure_of_retrieve operation) fun _ _ => FailsOnly.ok _
  · rename_i category
    exact FailsOnly.bind (operands (by simp [category])) fun _ _ => FailsOnly.ok _
  · rename_i category
    exact FailsOnly.bind (operands (by simp [category])) fun _ _ => FailsOnly.ok _
  · rename_i category
    exact FailsOnly.bind (operands (by simp [category])) fun _ _ => FailsOnly.ok _
  · rename_i category
    refine FailsOnly.bind (FailsOnly.mapM fun target listed => ?_) fun _ _ => FailsOnly.ok _
    exact prepared.failure_of_references (by simp [category]) listed
  · rename_i category
    refine FailsOnly.bind (fun error missing => ?_) fun _ _ => FailsOnly.ok _
    exact absurd missing (prepared.sortOf_ne_error (Operation.eq_of_category category (by decide)))
  · rename_i category
    have operation : step.operation = .sort := Operation.eq_of_category category (by decide)
    obtain ⟨keys, areKeys⟩ := prepared.arranged.areKeys prepared.member operation
    rw [Findings.sortPairs_eq_mapM areKeys]
    refine FailsOnly.bind (FailsOnly.mapM fun key listed => ?_) fun _ _ => FailsOnly.ok _
    refine (prepared.failure_of_references (by simp [category]) ?_).map _
    rw [Step.references, areKeys.references_eq]
    exact List.mem_map_of_mem listed
  · rename_i category
    split
    · exact FailsOnly.ok _
    · rename_i unread
      have operation : step.operation = .limit := Operation.eq_of_category category (by decide)
      exact FailsOnly.error_iff.mpr (.limit prepared.member operation unread)
  · exact FailsOnly.ok _
  · rename_i category
    split
    · have output : step.operation = .output := Operation.eq_of_category category (by decide)
      exact FailsOnly.bind (prepared.failure_of_addReturn output) fun _ _ => FailsOnly.ok _
    · exact FailsOnly.ok _

end IsPrepared

/-! ## Runs -/

/-- The steps of a subplan are prepared when their turn comes. -/
theorem isPrepared_of_stepsOf (arranged : plan.IsArranged) {earlier later : List Subplan}
    (whole : plan.subplans = earlier ++ subplan :: later)
    (ids : built.map (·.id) = earlier.map (·.id)) {before after : List StepRef}
    (steps : plan.stepsOf subplan = before ++ step.reference :: after)
    (found : plan.step? step.reference = some step)
    (cover : findings.Cover plan (earlier.flatMap plan.stepsOf ++ before)) :
    IsPrepared plan built subplan findings step := by
  have listed : subplan ∈ plan.subplans := by simp [whole]
  have member := List.mem_of_find?_eq_some found
  have visited : step.reference ∈ plan.stepsOf subplan := by simp [steps]
  have holds := (List.mem_filter.mp visited).2
  refine ⟨arranged, listed, member, holds, ?_, ?_, ?_⟩
  · exact cover_dependencies arranged listed member holds steps
      (cover.mono (List.subset_append_right _ _))
  · intro target reads other isOther noOutput
    have belongs : plan.Belongs subplan step := ⟨arranged.divided, listed, found, holds⟩
    have otherHolds := (belongs.of_reads reads isOther noOutput).holds
    obtain rfl := Plan.reference_of_step? isOther
    -- The other step stands among the visited ones, with what it depends on before it.
    have otherBefore := arranged.mem_before_of_reads member steps reads otherHolds
    obtain ⟨front, back, rfl⟩ := List.append_of_mem otherBefore
    refine cover_dependencies arranged listed (List.mem_of_find?_eq_some isOther) otherHolds
      (steps.trans (by rw [List.append_assoc, List.cons_append])) (cover.mono ?_)
    exact fun reference inFront => by simp [inFront]
  · intro target reads outside
    obtain ⟨parent, isEarlier, isRoot, -, only⟩ :=
      arranged.exists_parent whole member holds reads outside
    have parentListed : parent ∈ plan.subplans := by simp [whole, isEarlier]
    have differ : parent ≠ subplan := by
      rintro rfl
      have isPlace := (arranged.decomposed.has_iff parent parentListed target).mpr (.inl isRoot.symm)
      rw [outside] at isPlace
      cases isPlace
    have isBuilt : parent.id ∈ built.map (·.id) := ids ▸ List.mem_map_of_mem isEarlier
    obtain ⟨other, isOther, sameId⟩ := List.mem_map.mp isBuilt
    refine ⟨parent, parentListed, differ, isRoot, only, ⟨other, isOther, sameId⟩, cover.mono ?_⟩
    intro reference inParent
    exact List.mem_append_left _ (List.mem_flatMap.mpr ⟨parent, isEarlier, inParent⟩)

theorem failure_of_buildNext (arranged : plan.IsArranged) {earlier later : List Subplan}
    (whole : plan.subplans = earlier ++ subplan :: later) {state : Findings × List Draft}
    (ids : state.2.map (·.id) = earlier.map (·.id))
    (cover : state.1.Cover plan (earlier.flatMap plan.stepsOf))
    (failed : buildNext plan state subplan = .error error) : plan.DraftFailure error := by
  rcases bind_eq_error_iff.mp failed with failed | ⟨_, -, impossible⟩
  · obtain ⟨before, reference, after, middle, steps, covered, refused⟩ := exists_of_foldlM_eq_error
      (fun before (pair : Findings × Draft) =>
        pair.1.Cover plan (earlier.flatMap plan.stepsOf ++ before))
      (fun before reference later state after _ cover run => by
        rw [← List.append_assoc]
        exact cover_visitRef cover run) (by rwa [List.append_nil]) failed
    have listed : reference ∈ plan.stepsOf subplan := by simp [steps]
    obtain ⟨step, found⟩ := arranged.exists_step_of_node
      (arranged.isOrder.perm.mem_iff.mp (List.mem_filter.mp listed).1)
    obtain rfl := Plan.reference_of_step? found
    rw [visitRef, found] at refused
    exact (isPrepared_of_stepsOf arranged whole ids steps found covered).failure_of_visit error refused
  · cases impossible

end Draft

namespace Plan

variable {plan : Plan}

/-- Drafting an arranged plan fails only for reasons that lie in the plan. -/
theorem IsArranged.failure_of_drafts (arranged : plan.IsArranged) {error : Error}
    (failed : plan.drafts = .error error) : plan.DraftFailure error := by
  obtain ⟨earlier, subplan, later, state, whole, ⟨isBuilt, cover⟩, failed⟩ :=
    exists_of_foldlM_eq_error
      (fun before state => Draft.IsBuilt plan before state ∧
        state.1.Cover plan (before.flatMap plan.stepsOf))
      (fun before subplan later state after whole ⟨isBuilt, cover⟩ run => by
        refine ⟨Draft.isBuilt_buildNext arranged.divided whole isBuilt run, ?_⟩
        rw [List.flatMap_append, List.flatMap_singleton]
        exact Draft.cover_buildNext cover run)
      ⟨Draft.isBuilt_nil plan, nofun⟩ (map_eq_error_iff.mp failed)
  exact Draft.failure_of_buildNext arranged whole isBuilt.ids cover failed

/-- The steps of a plan that was read have the forms that drafting takes them apart by, and a sort has
the directions that are written in it.  Drafting never reports a parent subplan that is missing,
ambiguous or not read through its return step.  The only invariant it can find broken is a limit that
is no natural number of 64 bits, and it misses a field only where a step refers to one that has none, or
names a column of another subplan by a step outside of it. -/
theorem drafts_failures_of_parse {raw : Entries String String} (parsed : parse raw = .ok plan) :
    (∀ step ∈ plan.steps, Step.HasForm step.operation step.arguments) ∧
      (∀ step ∈ plan.steps, step.operation = .sort → ∃ keys : List (StepRef × Direction),
        Argument.AreKeys step.arguments keys ∧
        ∀ findings : Findings, findings.sortPairs step step.arguments =
          keys.mapM fun key => (findings.handle step key.1).map fun found => (found, key.2)) ∧
      ∀ error, plan.drafts = .error error →
        error.code ∉ ["RESOLUTION_002", "RESOLUTION_003", "RESOLUTION_004"] ∧
        (error.kind = .internal → ∃ step ∈ plan.steps, step.operation = .limit ∧
          Number.nat64? (Draft.firstContent step) = none ∧
          error = .invariant s!"limit step {step.reference.text} is not a non-negative integer") ∧
        (error.code = "RESOLUTION_006" → ∃ step ∈ plan.steps, ∃ target,
          error = Findings.unresolved step target ∧ plan.LacksField step target) := by
  have arranged := isArranged_of_parse parsed
  refine ⟨arranged.forms, ?_, ?_⟩
  · intro step member operation
    obtain ⟨keys, areKeys⟩ := arranged.areKeys member operation
    exact ⟨keys, areKeys, fun findings => Findings.sortPairs_eq_mapM areKeys⟩
  · intro error failed
    cases arranged.failure_of_drafts failed with
    | notAnEntity | columnNotExposed | ambiguousColumn | unsupportedReturnArgument
    | duplicateReturnClause =>
        refine ⟨?_, nofun, ?_⟩ <;> simp [Error.code, Error.classification]
    | @unresolved step member target lacks =>
        refine ⟨?_, nofun, fun _ => ⟨step, member, target, rfl, lacks⟩⟩
        simp [Findings.unresolved, Error.code, Error.classification]
    | @limit step member operation unread =>
        refine ⟨?_, fun _ => ⟨step, member, operation, unread, rfl⟩, ?_⟩ <;>
          simp [Error.invariant, Error.code, Error.classification]

end Plan

/-- Employees whose salary is above the average, where the column of the average is named by a step of
the outer query. -/
def averageNamedOutside : Entries String String :=
  [("|1|", "(retrieve_entity Employee)"), ("|2|", "(retrieve_attribute |1| salary)"),
    ("|3|", "(average |2|)"), ("|4|", "(collect |3|)"), ("|5|", "(return |4|)"),
    ("|6|", "(retrieve_entity Employee)"), ("|7|", "(retrieve_attribute |6| salary)"),
    ("|8|", "(retrieve_attribute |5| |7|)"), ("|9|", "(greaterthan |7| |8|)"),
    ("|10|", "(collect |7|)"), ("|11|", "(return |10| |9|)")]

theorem Plan.drafts_failures_averageNamedOutside :
    ∃ plan step target, parse averageNamedOutside = .ok plan ∧
      plan.drafts = .error (.unresolvedField "|8|" "retrieve_attribute" "|7|") ∧
      step ∈ plan.steps ∧ Error.unresolvedField "|8|" "retrieve_attribute" "|7|" =
        Findings.unresolved step target ∧ plan.LacksField step target := by
  have runs : (parse averageNamedOutside).map (fun plan => plan.drafts.map List.length) =
      .ok (.error (.unresolvedField "|8|" "retrieve_attribute" "|7|")) := by
    decide +kernel
  obtain ⟨plan, parsed, failed⟩ := map_eq_ok_iff.mp runs
  have failed := map_eq_error_iff.mp failed
  obtain ⟨-, -, failures⟩ := drafts_failures_of_parse parsed
  obtain ⟨step, member, target, same, lacks⟩ := (failures _ failed).2.2 rfl
  exact ⟨plan, step, target, parsed, failed, member, same, lacks⟩

end SemanticQuery
