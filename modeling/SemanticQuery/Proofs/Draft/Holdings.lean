import SemanticQuery.Proofs.Draft.Visit
import SemanticQuery.Proofs.Entries
import SemanticQuery.Proofs.Plan.Division

/-!
# What is held in a subplan

A subplan holds the handles that were found for its steps, and the keys of its sorts.  A visit makes
new handles of an entity of the subplan, of a column that an earlier draft returns, or of handles that
are held; it changes the draft by single edits, which take only handles that are held.
-/

namespace SemanticQuery

/-! ## Findings -/

structure Plan.Belongs (plan : Plan) (subplan : Subplan) (step : Step) : Prop where
  divided : plan.IsDivided
  listed : subplan ∈ plan.subplans
  found : plan.step? step.reference = some step
  holds : subplan.has step.reference = true

/-- What a step of a subplan depends on belongs to the subplan unless it is a return step. -/
theorem Plan.Belongs.of_reads {plan : Plan} {subplan : Subplan} {step other : Step}
    (belongs : plan.Belongs subplan step) {target : StepRef} (reads : target ∈ step.dependencies)
    (found : plan.step? target = some other) (noOutput : other.isOutput = false) :
    plan.Belongs subplan other := by
  obtain rfl := Plan.reference_of_step? found
  refine ⟨belongs.divided, belongs.listed, found, ?_⟩
  have member := List.mem_of_find?_eq_some belongs.found
  rcases belongs.divided.inside subplan belongs.listed step member belongs.holds _ reads
    with inside | output
  · exact inside
  · rw [Plan.step?, Plan.stepIn?] at found
    rw [Subplan.isOutputIn, found, Option.any_some, noOutput] at output
    cases output

namespace Findings

def Knows (findings : Findings) (reference : StepRef) : Prop :=
  (findings.handles.get? reference).isSome = true ∨
    (findings.entities.get? reference).isSome = true ∨
    (findings.sorts.get? reference).isSome = true

/-- What was found was found for steps that are no return steps. -/
def AreInner (plan : Plan) (findings : Findings) : Prop :=
  ∀ reference, findings.Knows reference →
    ∃ step, plan.step? reference = some step ∧ step.isOutput = false

variable {plan : Plan} {subplan : Subplan} {findings : Findings} {step : Step}

theorem eq_some_of_handle {target : StepRef} {handle : Handle}
    (found : findings.handle step target = .ok handle) :
    findings.handles.get? target = some handle := by
  unfold Findings.handle at found
  split at found
  · rename_i known isKnown
    cases found
    exact isKnown
  · cases found

/-- The handles among the operands of arguments are those of the steps they refer to. -/
theorem exists_of_mem_operands {included : StepRef → Bool} {arguments : List Argument}
    {operands : List Operand}
    (read : findings.operands step included arguments = .ok operands) {handle : Handle}
    (member : .handle handle ∈ operands) :
    ∃ target ∈ arguments.filterMap Argument.reference?,
      findings.handle step target = .ok handle := by
  induction arguments generalizing operands with
  | nil =>
      cases read
      cases member
  | cons argument rest ih =>
      cases argument with
      | literal value =>
          rw [Findings.operands] at read
          obtain ⟨others, othersRead, same⟩ := bind_eq_ok_iff.mp read
          cases same
          rcases List.mem_cons.mp member with impossible | later
          · cases impossible
          · exact ih othersRead later
      | reference target =>
          have deeper {others : List Operand}
              (othersRead : findings.operands step included rest = .ok others)
              (later : .handle handle ∈ others) :
              ∃ found ∈ (Argument.reference target :: rest).filterMap Argument.reference?,
                findings.handle step found = .ok handle := by
            obtain ⟨found, listed, isFound⟩ := ih othersRead later
            exact ⟨found, List.mem_cons_of_mem _ listed, isFound⟩
          rw [Findings.operands] at read
          split at read
          · obtain ⟨first, isFirst, read⟩ := bind_eq_ok_iff.mp read
            obtain ⟨others, othersRead, same⟩ := bind_eq_ok_iff.mp read
            cases same
            rcases List.mem_cons.mp member with same | later
            · cases same
              exact ⟨target, List.mem_cons_self, isFirst⟩
            · exact deeper othersRead later
          · exact deeper read member

/-- The keys of a sort are the handles of the steps it refers to. -/
theorem exists_of_mem_sortPairs {arguments : List Argument} {pairs : List (Handle × Direction)}
    (read : findings.sortPairs step arguments = .ok pairs) {pair : Handle × Direction}
    (member : pair ∈ pairs) :
    ∃ target ∈ arguments.filterMap Argument.reference?,
      findings.handle step target = .ok pair.1 := by
  fun_induction Findings.sortPairs findings step arguments generalizing pairs with
  | case1 =>
      cases read
      cases member
  | case2 => cases read
  | case3 => cases read
  | case4 target direction rest ih =>
      obtain ⟨handle, found, read⟩ := bind_eq_ok_iff.mp read
      obtain ⟨others, othersRead, same⟩ := bind_eq_ok_iff.mp read
      cases same
      rcases List.mem_cons.mp member with rfl | later
      · exact ⟨target, List.mem_cons_self, found⟩
      · obtain ⟨other, listed, isFound⟩ := ih othersRead later
        refine ⟨other, List.mem_cons_of_mem _ ?_, isFound⟩
        exact (List.Sublist.filterMap _ (List.sublist_cons_self _ _)).subset listed

/-- What was found for a step that a step of a subplan depends on is of the subplan. -/
theorem AreInner.has_of_knows (inner : findings.AreInner plan) (belongs : plan.Belongs subplan step)
    {target : StepRef} (reads : target ∈ step.dependencies) (known : findings.Knows target) :
    subplan.has target = true := by
  obtain ⟨other, found, noOutput⟩ := inner target known
  exact Plan.reference_of_step? found ▸ (belongs.of_reads reads found noOutput).holds

/-- A handle was found for a step of a subplan, or is a key of a sort there. -/
inductive Holds (subplan : Subplan) (findings : Findings) (handle : Handle) : Prop where
  | step {reference : StepRef} (found : findings.handles.get? reference = some handle)
      (holds : subplan.has reference = true) : Holds subplan findings handle
  | key {reference : StepRef} {pairs : List (Handle × Direction)}
      (found : findings.sorts.get? reference = some pairs) (holds : subplan.has reference = true)
      {pair : Handle × Direction} (member : pair ∈ pairs) (isKey : pair.1 = handle) :
      Holds subplan findings handle

variable {handle : Handle}

/-- The handle of what a step depends on is held. -/
theorem holds_of_handle (inner : findings.AreInner plan) (belongs : plan.Belongs subplan step)
    {other : Step} {target : StepRef} (reads : target ∈ step.dependencies)
    (found : findings.handle other target = .ok handle) : findings.Holds subplan handle := by
  have known := eq_some_of_handle found
  exact .step known (inner.has_of_knows belongs reads (.inl (by simp [known])))

/-- The keys of a sort that a step depends on are held. -/
theorem holds_of_sorts (inner : findings.AreInner plan) (belongs : plan.Belongs subplan step)
    {target : StepRef} (reads : target ∈ step.dependencies) {pairs : List (Handle × Direction)}
    (known : findings.sorts.get? target = some pairs) {pair : Handle × Direction}
    (member : pair ∈ pairs) : findings.Holds subplan pair.1 :=
  .key known (inner.has_of_knows belongs reads (.inr (.inr (by simp [known])))) member rfl

/-- Nothing is held of a subplan whose steps nothing was found for. -/
theorem not_holds (unknown : ∀ reference, subplan.has reference = true → ¬ findings.Knows reference) :
    ¬ findings.Holds subplan handle := by
  rintro (⟨found, holds⟩ | ⟨found, holds, -, -⟩)
  · exact unknown _ holds (.inl (by simp [found]))
  · exact unknown _ holds (.inr (.inr (by simp [found])))

theorem holds_put_handle {reference : StepRef} {new : Handle}
    (held : ({ findings with handles := findings.handles.put reference new } : Findings).Holds
      subplan handle) : findings.Holds subplan handle ∨ handle = new := by
  rcases held with ⟨found, holds⟩ | ⟨found, holds, member, isKey⟩
  · rw [Entries.get?_put] at found
    split at found
    · exact .inr (Option.some.inj found).symm
    · exact .inl (.step found holds)
  · exact .inl (.key found holds member isKey)

theorem holds_put_sort {reference : StepRef} {pairs : List (Handle × Direction)}
    (held : ({ findings with sorts := findings.sorts.put reference pairs } : Findings).Holds
      subplan handle) : findings.Holds subplan handle ∨ ∃ pair ∈ pairs, pair.1 = handle := by
  rcases held with ⟨found, holds⟩ | ⟨found, holds, member, isKey⟩
  · exact .inl (.step found holds)
  · rw [Entries.get?_put] at found
    split at found
    · cases found
      exact .inr ⟨_, member, isKey⟩
    · exact .inl (.key found holds member isKey)

end Findings

theorem Step.dependencies_eq_references {step : Step} (other : step.operation ≠ .retrieveAttribute) :
    step.dependencies = step.references := by
  unfold Step.dependencies
  split
  · rename_i isRetrieval
    exact absurd isRetrieval other
  · rfl

/-- A step that is no retrieval depends on all that it refers to. -/
theorem Step.dependencies_eq_of_category {step : Step}
    (other : step.operation.category ≠ .retrieval) : step.dependencies = step.references := by
  refine Step.dependencies_eq_references fun isRetrieval => other ?_
  rw [isRetrieval]
  rfl

/-- Some operations are alone in their categories. -/
theorem Operation.eq_of_category {operation other : Operation}
    (category : operation.category = other.category)
    (alone : other ∈ [.rowNumber, .sort, .limit, .collect, .output]) : operation = other := by
  simp only [List.mem_cons, List.not_mem_nil, or_false] at alone
  rcases alone with rfl | rfl | rfl | rfl | rfl <;> cases operation <;> first | rfl | cases category

namespace Draft

variable {plan : Plan} {built : List Draft} {subplan : Subplan} {findings after : Findings}
  {draft result : Draft} {step : Step}

/-- A visit finds something for its own step only, and nothing for a collect or return step. -/
theorem Visits.knows_cases {after : Findings}
    (visits : Visits plan built subplan findings draft step after result) {reference : StepRef}
    (known : after.Knows reference) :
    findings.Knows reference ∨
      reference = step.reference ∧ step.operation ≠ .collect ∧ step.operation ≠ .output := by
  have neither (other : step.operation.category ≠ .collect ∧ step.operation.category ≠ .output) :
      step.operation ≠ .collect ∧ step.operation ≠ .output := by
    constructor
    · intro collect
      exact other.1 (by rw [collect]; rfl)
    · intro output
      exact other.2 (by rw [output]; rfl)
  by_cases same : step.reference = reference
  · subst same
    cases visits with
    | groupBy | limit | collect | inner | root => exact .inl known
    | entity operation => exact .inr ⟨rfl, neither (by simp [operation, Operation.category])⟩
    | operation category =>
        refine .inr ⟨rfl, neither ?_⟩
        rcases category with category | category <;> simp [category]
    | retrieval category | analysis category | rowNumber category | sort category =>
        exact .inr ⟨rfl, neither (by simp [category])⟩
  · left
    cases visits with
    | groupBy | limit | collect | inner | root => exact known
    | entity | operation | retrieval | analysis | rowNumber | sort =>
        simpa [Findings.Knows, keepExpression, Entries.get?_put, same] using known

theorem exists_of_sortOf {pairs : List (Handle × Direction)} (read : sortOf findings step = .ok pairs) :
    ∃ target, step.arguments.head? = some (.reference target) ∧
      findings.sorts.get? target = some pairs := by
  unfold sortOf at read
  split at read
  · rename_i target _ arguments
    split at read
    · rename_i found isFound
      cases read
      exact ⟨target, by rw [arguments]; rfl, isFound⟩
    · cases read
  · cases read

/-! ## Handles that a visit makes -/

/-- What a visit to a step makes of what was found before. -/
inductive Makes (built : List Draft) (subplan : Subplan) (findings : Findings) (step : Step)
    (result : Draft) : Handle → Prop where
  | field {target : StepRef} {entity : String} (holds : subplan.has target = true)
      (known : findings.entities.get? target = some entity) (name : String) :
      Makes built subplan findings step result (.field entity name)
  | column {other : Draft} (member : other ∈ built) {name : String} (exposed : name ∈ other.select)
      {origin : Handle} (stored : other.fields.get? name = some origin)
      (listed : .subplan other.id ∈ result.sources) :
      Makes built subplan findings step result (.column other.id name origin)
  | expression {operands : List Operand}
      (each : ∀ inner, .handle inner ∈ operands → findings.Holds subplan inner)
      (noted : (result.origins.get? (.expression step.operation operands)).isSome = true) :
      Makes built subplan findings step result (.expression step.operation operands)

theorem isSome_get?_addOrigin (draft : Draft) (handle : Handle) (reference : StepRef) :
    ((draft.addOrigin handle reference).origins.get? handle).isSome = true := by
  rw [addOrigin, Entries.get?_putNew]
  simp

/-- The expression of a step over operands that are held is the only handle it makes. -/
theorem holds_keepExpression {operands : List Operand}
    (each : ∀ inner, .handle inner ∈ operands → findings.Holds subplan inner) {handle : Handle}
    (held : (keepExpression findings draft step operands).1.Holds subplan handle) :
    findings.Holds subplan handle ∨
      Makes built subplan findings step (keepExpression findings draft step operands).2 handle := by
  rcases Findings.holds_put_handle held with earlier | rfl
  · exact .inl earlier
  · exact .inr (.expression each (isSome_get?_addOrigin draft _ _))

/-- What is held after a visit was held before, or the visit made it. -/
theorem Visits.holds_cases (visits : Visits plan built subplan findings draft step after result)
    (inner : findings.AreInner plan) (belongs : plan.Belongs subplan step) {handle : Handle}
    (held : after.Holds subplan handle) :
    findings.Holds subplan handle ∨ Makes built subplan findings step result handle := by
  have ofOperands {included : StepRef → Bool} {operands : List Operand}
      (other : step.operation.category ≠ .retrieval)
      (read : findings.operands step included step.arguments = .ok operands) (operand : Handle)
      (member : .handle operand ∈ operands) : findings.Holds subplan operand := by
    obtain ⟨target, listed, found⟩ := Findings.exists_of_mem_operands read member
    rw [← Step.references, ← Step.dependencies_eq_of_category other] at listed
    exact Findings.holds_of_handle inner belongs listed found
  cases visits with
  | groupBy | collect | inner | root => exact .inl held
  | entity | limit =>
      rcases held with ⟨found, holds⟩ | ⟨found, holds, member, isKey⟩
      · exact .inl (.step found holds)
      · exact .inl (.key found holds member isKey)
  | retrieval _ read =>
      rcases Findings.holds_put_handle held with earlier | rfl
      · exact .inl earlier
      · rcases retrieve_cases read with ⟨target, -, ⟨entity, name, holds, known, rfl, rfl⟩ |
          ⟨_, -, -, other, member, -, column, exposed, origin, stored, rfl, rfl⟩⟩
        · exact .inr (.field holds known name)
        · exact .inr (.column member exposed stored (mem_addNew.mpr (.inr rfl)))
  | operation category read =>
      refine holds_keepExpression (ofOperands ?_ read) held
      rcases category with category | category <;> simp [category]
  | analysis category read =>
      exact holds_keepExpression (ofOperands (by simp [category]) read) held
  | @rowNumber pairs category read =>
      refine holds_keepExpression ?_ held
      intro operand member
      obtain ⟨pair, pairMember, isHandle⟩ := List.mem_flatMap.mp member
      obtain rfl : operand = pair.1 := by simpa using isHandle
      obtain ⟨target, isFirst, found⟩ := exists_of_sortOf read
      have reads : target ∈ step.dependencies := by
        rw [Step.dependencies_eq_of_category (by simp [category]), Step.references]
        exact List.mem_filterMap.mpr ⟨_, List.mem_of_head? isFirst, rfl⟩
      exact Findings.holds_of_sorts inner belongs reads found pairMember
  | sort category read =>
      rcases Findings.holds_put_sort held with earlier | ⟨pair, member, rfl⟩
      · exact .inl earlier
      · obtain ⟨target, listed, found⟩ := Findings.exists_of_mem_sortPairs read member
        rw [← Step.references, ← Step.dependencies_eq_of_category (by simp [category])] at listed
        exact .inl (Findings.holds_of_handle inner belongs listed found)

/-! ## Edits of a draft -/

def handles (draft : Draft) : List Handle :=
  draft.fields.map (·.2) ++ draft.filter.toList ++ draft.having.toList

theorem mem_handles {handle : Handle} : handle ∈ draft.handles ↔
    handle ∈ draft.fields.map (·.2) ∨ draft.filter = some handle ∨ draft.having = some handle := by
  simp [handles]

/-- A change that makes a handle's column known and touches neither sources nor predicates. -/
structure AddsField (draft : Draft) (handle : Handle) (result : Draft) : Prop where
  sources : result.sources = draft.sources
  filter : result.filter = draft.filter
  having : result.having = draft.having
  fields : result.fields = draft.fields.putNew handle.columnName handle

theorem addsField_returnField (draft : Draft) (handle : Handle) :
    AddsField draft handle (draft.returnField handle) :=
  ⟨rfl, rfl, rfl, rfl⟩

theorem addsField_groupByField (draft : Draft) (handle : Handle) :
    AddsField draft handle (draft.groupByField handle) :=
  ⟨rfl, rfl, rfl, rfl⟩

theorem addsField_sortByField (draft : Draft) (key : Handle × Direction) :
    AddsField draft key.1 (draft.sortByField key) :=
  ⟨rfl, rfl, rfl, rfl⟩

inductive Edits (held : Handle → Prop) (step : Step) (draft : Draft) : Draft → Prop where
  | source (source : Source) : Edits held step draft (draft.addSource source)
  /-- The step is noted for an expression of its own operation. -/
  | origin (operands : List Operand) : Edits held step draft
      (draft.addOrigin (.expression step.operation operands) step.reference)
  | returned {handle : Handle} (holds : held handle) :
      Edits held step draft (draft.returnField handle)
  | grouped {handle : Handle} (holds : held handle) :
      Edits held step draft (draft.groupByField handle)
  | sorted {key : Handle × Direction} (holds : held key.1) :
      Edits held step draft (draft.sortByField key)
  | placed {predicate : Handle} {result : Draft} (holds : held predicate)
      (places : Places draft predicate result) : Edits held step draft result
  | limited (limit : Option Nat) : Edits held step draft { draft with limit }

/-- Changes with items of a list, one after the other. -/
theorem edits_foldl {α : Type} {held : Handle → Prop} (change : Draft → α → Draft) {items : List α}
    (each : ∀ draft : Draft, ∀ item ∈ items, Edits held step draft (change draft item))
    (draft : Draft) :
    Relation.ReflTransGen (Edits held step) draft (items.foldl change draft) :=
  List.foldlRecOn (motive := Relation.ReflTransGen (Edits held step) draft) items change .refl
    fun before path item member => path.tail (each before item member)

theorem edits_addClause (inner : findings.AreInner plan) (belongs : plan.Belongs subplan step)
    {target : StepRef} (reads : target ∈ step.dependencies)
    (added : addClause plan findings step draft target = .ok result) :
    Relation.ReflTransGen (Edits (findings.Holds subplan) step) draft result := by
  obtain ⟨clause, -, rfl, takes⟩ := exists_takesClause added
  cases takes with
  | predicate _ read places =>
      exact .single (.placed (Findings.holds_of_handle inner belongs reads read) places)
  | sort =>
      refine edits_foldl sortByField (fun draft pair member => .sorted ?_) draft
      cases keys : findings.sorts.get? clause.reference with
      | none =>
          rw [keys] at member
          cases member
      | some pairs =>
          rw [keys] at member
          exact Findings.holds_of_sorts inner belongs reads keys member
  | limit => exact .single (.limited _)

theorem edits_addReturn (inner : findings.AreInner plan) (belongs : plan.Belongs subplan step)
    (output : step.operation = .output) (returned : draft.addReturn plan findings step = .ok result) :
    Relation.ReflTransGen (Edits (findings.Holds subplan) step) draft result := by
  have references : step.dependencies = step.references :=
    Step.dependencies_eq_references (by simp [output])
  obtain ⟨first, clauses, collect, handles, arguments, found, read, run⟩ :=
    exists_of_addReturn returned
  have listed : first ∈ step.dependencies := by simp [references, arguments]
  -- The collect step belongs to the subplan too, so what it refers to was found there.
  have isCollect : collect.operation = .collect :=
    belongs.divided.collects step (List.mem_of_find?_eq_some belongs.found) output first
      (by simp [arguments]) collect found
  have collectBelongs : plan.Belongs subplan collect :=
    belongs.of_reads listed found (by simp [Step.isOutput, isCollect])
  have collected : Relation.ReflTransGen (Edits (findings.Holds subplan) step) draft
      (handles.foldl returnField draft) := by
    refine edits_foldl returnField (fun draft handle member => .returned ?_) draft
    obtain ⟨target, targetMember, isHandle⟩ := exists_of_mem_mapM read member
    refine Findings.holds_of_handle inner collectBelongs ?_ isHandle
    rwa [Step.dependencies_eq_references (by simp [isCollect])]
  refine foldlM_keeps_of_mem (Relation.ReflTransGen (Edits (findings.Holds subplan) step) draft) ?_
    collected run
  intro before target member next path added
  have reads : target ∈ step.dependencies := by simp [references, arguments, member]
  exact path.trans (edits_addClause inner belongs reads added)

/-- A visit changes the draft by edits with handles that are held before it. -/
theorem Visits.edits (visits : Visits plan built subplan findings draft step after result)
    (inner : findings.AreInner plan) (belongs : plan.Belongs subplan step) :
    Relation.ReflTransGen (Edits (findings.Holds subplan) step) draft result := by
  cases visits with
  | entity => exact .single (.source _)
  | retrieval _ read =>
      rcases eq_of_retrieve read with rfl | ⟨source, rfl⟩
      · exact .refl
      · exact .single (.source source)
  | operation | analysis | rowNumber => exact .single (.origin _)
  | groupBy category read =>
      refine edits_foldl groupByField (fun draft handle member => .grouped ?_) draft
      obtain ⟨target, listed, found⟩ := exists_of_mem_mapM read member
      refine Findings.holds_of_handle inner belongs ?_ found
      rwa [Step.dependencies_eq_of_category (by simp [category])]
  | sort | limit | collect | inner => exact .refl
  | root category _ returned =>
      exact edits_addReturn inner belongs (Operation.eq_of_category category (by decide)) returned

/-! ## What edits keep -/

variable {held : Handle → Prop}

/-- What single edits keep is kept by a visit. -/
theorem keeps_of_edits (property : Draft → Prop)
    (keeps : ∀ before next, Edits held step before next → property before → property next)
    (path : Relation.ReflTransGen (Edits held step) draft result) (start : property draft) :
    property result := by
  induction path with
  | refl => exact start
  | tail _ edit ih => exact keeps _ _ edit ih

theorem AddsField.handles_cases {handle other : Handle} (adds : AddsField draft handle result)
    (member : other ∈ result.handles) : other ∈ draft.handles ∨ other = handle := by
  rw [mem_handles, adds.filter, adds.having, adds.fields] at member
  rcases member with inFields | isPredicate
  · obtain ⟨entry, entryMember, rfl⟩ := List.mem_map.mp inFields
    rcases Entries.mem_of_mem_putNew entryMember with earlier | rfl
    · exact .inl (mem_handles.mpr (.inl (List.mem_map_of_mem earlier)))
    · exact .inr rfl
  · exact .inl (mem_handles.mpr (.inr isPredicate))

theorem Places.handles_cases {predicate other : Handle} (places : Places draft predicate result)
    (member : other ∈ result.handles) : other ∈ draft.handles ∨ other = predicate := by
  rw [mem_handles] at member ⊢
  cases places with
  | having =>
      rcases member with inFields | isFilter | isHaving
      · exact .inl (.inl inFields)
      · exact .inl (.inr (.inl isFilter))
      · exact .inr (Option.some.inj isHaving).symm
  | filter =>
      rcases member with inFields | isFilter | isHaving
      · exact .inl (.inl inFields)
      · exact .inr (Option.some.inj isFilter).symm
      · exact .inl (.inr (.inr isHaving))

/-- An edit makes a draft evaluate no other handles than those that are held. -/
theorem Edits.handles_cases (edits : Edits held step draft result) {handle : Handle}
    (member : handle ∈ result.handles) : handle ∈ draft.handles ∨ held handle := by
  have ofField {new : Handle} (holds : held new) (adds : AddsField draft new result) :
      handle ∈ draft.handles ∨ held handle := by
    rcases adds.handles_cases member with earlier | rfl
    · exact .inl earlier
    · exact .inr holds
  cases edits with
  | source | origin | limited => exact .inl member
  | returned holds => exact ofField holds (draft.addsField_returnField _)
  | grouped holds => exact ofField holds (draft.addsField_groupByField _)
  | sorted holds => exact ofField holds (draft.addsField_sortByField _)
  | placed holds places =>
      rcases places.handles_cases member with earlier | rfl
      · exact .inl earlier
      · exact .inr holds

theorem Places.sources_eq {predicate : Handle} (places : Places draft predicate result) :
    result.sources = draft.sources := by
  cases places <;> rfl

theorem Places.origins_eq {predicate : Handle} (places : Places draft predicate result) :
    result.origins = draft.origins := by
  cases places <;> rfl

/-- An expression that a step is noted for remains so. -/
theorem Edits.isSome_get?_origins (edits : Edits held step draft result) {handle : Handle}
    (noted : (draft.origins.get? handle).isSome = true) :
    (result.origins.get? handle).isSome = true := by
  cases edits with
  | origin operands =>
      rw [addOrigin, Entries.get?_putNew, Option.isSome_or, noted, Bool.true_or]
  | placed _ places => rwa [places.origins_eq]
  | _ => exact noted

theorem Edits.nodup_sources (edits : Edits held step draft result) (distinct : draft.sources.Nodup) :
    result.sources.Nodup := by
  cases edits with
  | source => exact nodup_addNew distinct
  | placed _ places => rwa [places.sources_eq]
  | _ => exact distinct

namespace Visits

variable (visits : Visits plan built subplan findings draft step after result)
  (inner : findings.AreInner plan) (belongs : plan.Belongs subplan step)

include visits inner belongs

theorem isSome_get?_origins {handle : Handle} (noted : (draft.origins.get? handle).isSome = true) :
    (result.origins.get? handle).isSome = true :=
  keeps_of_edits (fun next => (next.origins.get? handle).isSome = true)
    (fun _ _ edit noted => edit.isSome_get?_origins noted) (visits.edits inner belongs) noted

/-- What holds of all handles that are held, that are made and that are evaluated holds of those after
the visit. -/
theorem holds_of_each (property : Handle → Prop)
    (known : ∀ handle, findings.Holds subplan handle → property handle)
    (made : ∀ handle, Makes built subplan findings step result handle → property handle)
    (evaluated : ∀ handle ∈ draft.handles, property handle) :
    (∀ handle, after.Holds subplan handle → property handle) ∧
      ∀ handle ∈ result.handles, property handle := by
  constructor
  · intro handle held
    exact (visits.holds_cases inner belongs held).elim (known handle) (made handle)
  · exact keeps_of_edits (fun next => ∀ handle ∈ next.handles, property handle)
      (fun _ _ edit each handle member => (edit.handles_cases member).elim (each handle) (known handle))
      (visits.edits inner belongs) evaluated

end Visits

end Draft

end SemanticQuery
