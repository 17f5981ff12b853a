import SemanticQuery.Proofs.Draft.Readers
import SemanticQuery.Proofs.Draft.Records

/-!
# The clauses of return steps

A draft takes over what its return step lists.  It returns the columns that are collected, each once;
it has every predicate as its filter or its condition on groups; and it sorts by the keys of all sorts
in order.  Of several limits only the last one is kept.
-/

namespace SemanticQuery

namespace Findings

variable {findings after : Findings}

def Finds (findings : Findings) (step : Step) (handle : Handle) : Prop :=
  findings.handles.get? step.reference = some handle

def IsSortKey (findings : Findings) (key : StepRef × Direction) (sortKey : SortKey) : Prop :=
  ∃ handle, findings.handles.get? key.1 = some handle ∧ sortKey = ⟨handle.columnName, key.2⟩

def IsRead (findings : Findings) (argument : Argument) (handle : Handle) : Prop :=
  ∃ target, argument = .reference target ∧ findings.handles.get? target = some handle

end Findings

namespace Draft

structure HasClauses (findings : Findings) (clauses : List Step) (draft : Draft) : Prop where
  kinds : ∀ clause ∈ clauses, clause.operation.category ∈ [.predicate, .sort, .limit]
  /-- Every predicate is the filter or the condition on groups. -/
  predicates : ∃ predicates,
    List.Forall₂ findings.Finds (clauses.filter (·.operation.category = .predicate)) predicates ∧
    draft.filter.toList = predicates.filter (!·.containsAggregate) ∧
    draft.having.toList = predicates.filter (·.containsAggregate)
  sort : List.Forall₂ findings.IsSortKey (clauses.flatMap Step.sortKeys) draft.sort
  numbers : ∀ clause ∈ clauses, clause.operation = .limit → clause.limit?.isSome = true
  /-- Only the last limit counts. -/
  limit : draft.limit = (clauses.filterMap Step.limit?).getLast?

/-- A draft has what a return step asks for: the columns of a collect step, and clauses. -/
structure Returns (plan : Plan) (findings : Findings) (step collect : Step) (clauses : List Step)
    (draft : Draft) : Prop where
  arguments : step.arguments.map (fun argument => argument.reference?.bind plan.step?) =
    (collect :: clauses).map some
  isCollect : collect.operation = .collect
  select : ∃ handles, List.Forall₂ findings.IsRead collect.arguments handles ∧
    draft.select = (handles.map Handle.columnName).eraseDups
  hasClauses : draft.HasClauses findings clauses

structure SameReturn (draft after : Draft) : Prop where
  select : after.select = draft.select
  filter : after.filter = draft.filter
  having : after.having = draft.having
  sort : after.sort = draft.sort
  limit : after.limit = draft.limit

variable {plan : Plan} {built : List Draft} {subplan : Subplan} {findings after : Findings}
  {draft middle result : Draft} {step clause collect : Step} {clauses : List Step}

namespace SameReturn

theorem refl (draft : Draft) : SameReturn draft draft :=
  ⟨rfl, rfl, rfl, rfl, rfl⟩

theorem trans (first : SameReturn draft middle) (second : SameReturn middle result) :
    SameReturn draft result where
  select := second.select.trans first.select
  filter := second.filter.trans first.filter
  having := second.having.trans first.having
  sort := second.sort.trans first.sort
  limit := second.limit.trans first.limit

theorem foldl {α : Type} (change : Draft → α → Draft)
    (each : ∀ draft item, SameReturn draft (change draft item)) (items : List α) (draft : Draft) :
    SameReturn draft (items.foldl change draft) :=
  List.foldlRecOn (motive := SameReturn draft) items change (.refl draft)
    fun before same item _ => same.trans (each before item)

theorem hasClauses (same : SameReturn draft result) (has : draft.HasClauses findings clauses) :
    result.HasClauses findings clauses where
  kinds := has.kinds
  predicates := by
    rw [same.filter, same.having]
    exact has.predicates
  sort := same.sort ▸ has.sort
  numbers := has.numbers
  limit := same.limit.trans has.limit

theorem returns (same : SameReturn draft result)
    (returns : draft.Returns plan findings step collect clauses) :
    result.Returns plan findings step collect clauses where
  arguments := returns.arguments
  isCollect := returns.isCollect
  select := by
    rw [same.select]
    exact returns.select
  hasClauses := same.hasClauses returns.hasClauses

end SameReturn

/-! ## Findings that grow -/

theorem HasClauses.mono (has : draft.HasClauses findings clauses) (kept : findings.KeptIn after) :
    draft.HasClauses after clauses where
  kinds := has.kinds
  predicates := by
    obtain ⟨predicates, found, filter, having⟩ := has.predicates
    exact ⟨predicates, found.imp fun _ _ => kept _ _, filter, having⟩
  sort := has.sort.imp fun _ _ ⟨handle, found, same⟩ => ⟨handle, kept _ _ found, same⟩
  numbers := has.numbers
  limit := has.limit

theorem Returns.mono (returns : draft.Returns plan findings step collect clauses)
    (kept : findings.KeptIn after) : draft.Returns plan after step collect clauses where
  arguments := returns.arguments
  isCollect := returns.isCollect
  select := by
    obtain ⟨handles, read, select⟩ := returns.select
    exact ⟨handles, read.imp fun _ _ ⟨target, same, found⟩ => ⟨target, same, kept _ _ found⟩, select⟩
  hasClauses := returns.hasClauses.mono kept

/-! ## Columns and keys -/

/-- Returning columns adds the ones that are new. -/
theorem foldl_returnField (handles : List Handle) (draft : Draft) :
    SameReturn
      { draft with select :=
          (handles.map Handle.columnName).foldl (fun known name => addNew name known) draft.select }
      (handles.foldl returnField draft) := by
  induction handles generalizing draft with
  | nil => exact .refl draft
  | cons handle rest ih =>
      have first : SameReturn _ _ := ih (draft.returnField handle)
      exact ⟨first.select, first.filter, first.having, first.sort, first.limit⟩

/-- Sorting by keys puts them behind those that are there. -/
theorem foldl_sortByField (pairs : List (Handle × Direction)) (draft : Draft) :
    SameReturn
      { draft with sort := draft.sort ++ pairs.map fun pair => ⟨pair.1.columnName, pair.2⟩ }
      (pairs.foldl sortByField draft) := by
  induction pairs generalizing draft with
  | nil => exact ⟨rfl, rfl, rfl, (List.append_nil _).symm, rfl⟩
  | cons pair rest ih =>
      have later : SameReturn _ _ := ih (draft.sortByField pair)
      refine ⟨later.select, later.filter, later.having, later.sort.trans ?_, later.limit⟩
      exact List.append_assoc _ _ _

/-! ## Clauses -/

structure AddsClause (findings : Findings) (clause : Step) (draft result : Draft) : Prop where
  kind : clause.operation.category ∈ [.predicate, .sort, .limit]
  select : result.select = draft.select
  predicates : ∃ predicates,
    List.Forall₂ findings.Finds ([clause].filter (·.operation.category = .predicate)) predicates ∧
    result.filter.toList = draft.filter.toList ++ predicates.filter (!·.containsAggregate) ∧
    result.having.toList = draft.having.toList ++ predicates.filter (·.containsAggregate)
  sort : ∃ keys, List.Forall₂ findings.IsSortKey clause.sortKeys keys ∧
    result.sort = draft.sort ++ keys
  number : clause.operation = .limit → clause.limit?.isSome = true
  limit : result.limit = clause.limit?.or draft.limit

theorem forall₂_finds_nil (other : clause.operation.category ≠ .predicate) :
    List.Forall₂ findings.Finds ([clause].filter (·.operation.category = .predicate)) [] := by
  simp [other]

/-- A predicate takes a place that is free. -/
theorem Places.addsClause {predicate : Handle} (places : Places draft predicate result)
    (category : clause.operation.category = .predicate) (found : findings.Finds clause predicate) :
    AddsClause findings clause draft result := by
  have isFound : List.Forall₂ findings.Finds
      ([clause].filter (·.operation.category = .predicate)) [predicate] := by
    simp [category, found]
  have noSort : clause.sortKeys = [] := Step.sortKeys_eq_nil (by simp [category])
  have noLimit : clause.limit? = none := Step.limit?_eq_none (by simp [category])
  have noNumber (isLimit : clause.operation = .limit) : clause.limit?.isSome = true := by
    rw [isLimit] at category
    cases category
  cases places with
  | having contains free =>
      exact {
        kind := by simp [category]
        select := rfl
        predicates := ⟨[predicate], isFound, by simp [contains], by simp [contains, free]⟩
        sort := ⟨[], by rw [noSort]; exact .nil, (List.append_nil _).symm⟩
        number := noNumber
        limit := by rw [noLimit, Option.none_or] }
  | filter lacks free =>
      exact {
        kind := by simp [category]
        select := rfl
        predicates := ⟨[predicate], isFound, by simp [lacks, free], by simp [lacks]⟩
        sort := ⟨[], by rw [noSort]; exact .nil, (List.append_nil _).symm⟩
        number := noNumber
        limit := by rw [noLimit, Option.none_or] }

/-- A sort adds its keys. -/
theorem addsClause_of_sort (operation : clause.operation = .sort)
    {pairs : List (Handle × Direction)}
    (areKeys : List.Forall₂ findings.IsKey clause.sortKeys pairs) :
    AddsClause findings clause draft (pairs.foldl sortByField draft) := by
  have sorted := foldl_sortByField pairs draft
  have category : clause.operation.category = .sort := by rw [operation]; rfl
  exact {
    kind := by simp [category]
    select := sorted.select
    predicates := by
      rw [sorted.filter, sorted.having]
      exact ⟨[], forall₂_finds_nil (by simp [category]), (List.append_nil _).symm,
        (List.append_nil _).symm⟩
    sort := by
      refine ⟨_, ?_, sorted.sort⟩
      rw [List.forall₂_map_right_iff]
      exact areKeys.imp fun key pair ⟨isHandle, same⟩ => ⟨pair.1, isHandle, by rw [same]⟩
    number := by
      intro isLimit
      rw [operation] at isLimit
      cases isLimit
    limit := by rw [Step.limit?_eq_none (by simp [category]), Option.none_or, sorted.limit] }

/-- A limit takes the place of the one before. -/
theorem addsClause_of_limit (operation : clause.operation = .limit) {count : Nat}
    (isCount : clause.limit? = some count) :
    AddsClause findings clause draft { draft with limit := some count } := by
  have category : clause.operation.category = .limit := by rw [operation]; rfl
  exact {
    kind := by simp [category]
    select := rfl
    predicates := ⟨[], forall₂_finds_nil (by simp [category]), (List.append_nil _).symm,
      (List.append_nil _).symm⟩
    sort := by
      rw [Step.sortKeys_eq_nil (by simp [category])]
      exact ⟨[], .nil, (List.append_nil _).symm⟩
    number := by
      rw [isCount]
      exact fun _ => rfl
    limit := by rw [isCount, Option.some_or] }

/-- A clause that was visited is added. -/
theorem TakesClause.addsClause (takes : TakesClause findings step draft clause result)
    {visited : List StepRef} (records : findings.Records plan visited)
    (member : clause ∈ plan.steps)
    (isVisited : clause.isOutput = false → clause.reference ∈ visited) :
    AddsClause findings clause draft result := by
  cases takes with
  | predicate category read places =>
      exact places.addsClause category (Findings.eq_some_of_handle read)
  | sort category =>
      have operation : clause.operation = .sort := Operation.eq_of_category category (by decide)
      obtain ⟨pairs, isKnown, areKeys⟩ := records.sorts clause member
        (isVisited (by simp [Step.isOutput, operation])) operation
      rw [isKnown]
      exact addsClause_of_sort operation areKeys
  | limit category =>
      have operation : clause.operation = .limit := Operation.eq_of_category category (by decide)
      obtain ⟨count, isCount, isKnown⟩ := records.limits clause member
        (isVisited (by simp [Step.isOutput, operation])) operation
      rw [isKnown]
      exact addsClause_of_limit operation isCount

theorem hasClauses_nil (filter : draft.filter = none) (having : draft.having = none)
    (sort : draft.sort = []) (limit : draft.limit = none) : draft.HasClauses findings [] where
  kinds := nofun
  predicates := ⟨[], .nil, by rw [filter]; rfl, by rw [having]; rfl⟩
  sort := by
    rw [sort]
    exact .nil
  numbers := nofun
  limit := limit

theorem HasClauses.concat (has : draft.HasClauses findings clauses)
    (adds : AddsClause findings clause draft result) :
    result.HasClauses findings (clauses ++ [clause]) where
  kinds := List.forall_mem_append.mpr ⟨has.kinds, List.forall_mem_singleton.mpr adds.kind⟩
  predicates := by
    obtain ⟨predicates, areFound, filter, having⟩ := has.predicates
    obtain ⟨more, moreFound, isFilter, isHaving⟩ := adds.predicates
    refine ⟨predicates ++ more, ?_, ?_, ?_⟩
    · rw [List.filter_append]
      exact List.rel_append areFound moreFound
    · rw [isFilter, filter, List.filter_append]
    · rw [isHaving, having, List.filter_append]
  sort := by
    obtain ⟨keys, areKeys, sort⟩ := adds.sort
    rw [sort, List.flatMap_append, List.flatMap_singleton]
    exact List.rel_append has.sort areKeys
  numbers := List.forall_mem_append.mpr ⟨has.numbers, List.forall_mem_singleton.mpr adds.number⟩
  limit := by
    have single : [clause].filterMap Step.limit? = clause.limit?.toList := by
      cases found : clause.limit? <;> simp [found]
    rw [adds.limit, has.limit, List.filterMap_append, List.getLast?_append, single]
    cases clause.limit? <;> rfl

/-- Every limit is kept if they all have the same number. -/
theorem HasClauses.limit_iff (has : draft.HasClauses findings clauses) :
    (∀ clause ∈ clauses, clause.operation = .limit → draft.limit = clause.limit?) ↔
      ∀ first ∈ clauses, ∀ second ∈ clauses, first.operation = .limit → second.operation = .limit →
        first.limit? = second.limit? := by
  constructor
  · intro kept first firstListed second secondListed isFirst isSecond
    exact (kept first firstListed isFirst).symm.trans (kept second secondListed isSecond)
  · intro same clause listed isLimit
    obtain ⟨count, isCount⟩ := Option.isSome_iff_exists.mp (has.numbers clause listed isLimit)
    have counted : count ∈ clauses.filterMap Step.limit? :=
      List.mem_filterMap.mpr ⟨clause, listed, isCount⟩
    obtain ⟨last, isLast⟩ := Option.isSome_iff_exists.mp
      (List.getLast?_isSome.mpr (List.ne_nil_of_mem counted))
    obtain ⟨other, otherListed, isOther⟩ := List.mem_filterMap.mp (List.mem_of_getLast? isLast)
    rw [has.limit, isLast, ← isOther]
    exact same other otherListed clause listed (Step.operation_of_limit? isOther) isLimit

/-! ## Return steps -/

/-- Clauses that are added in turn are all in the draft, and the columns stay as they were. -/
theorem exists_hasClauses {visited : List StepRef} (records : findings.Records plan visited)
    {targets : List StepRef}
    (isVisited : ∀ target ∈ targets, ∀ other, plan.step? target = some other →
      other.isOutput = false → target ∈ visited)
    (start : draft.HasClauses findings [])
    (run : targets.foldlM (addClause plan findings step) draft = .ok result) :
    ∃ clauses : List Step, targets.map plan.step? = clauses.map some ∧
      result.HasClauses findings clauses ∧ result.select = draft.select := by
  refine foldlM_keeps_prefix (fun before (after : Draft) => ∃ clauses : List Step,
    before.map plan.step? = clauses.map some ∧ after.HasClauses findings clauses ∧
      after.select = draft.select) ?_ ⟨[], rfl, start, rfl⟩ run
  rintro before target rest state after whole ⟨clauses, areClauses, has, select⟩ added
  obtain ⟨clause, found, rfl, takes⟩ := exists_takesClause added
  have adds := takes.addsClause records (List.mem_of_find?_eq_some found)
    (isVisited clause.reference (by simp [whole]) clause found)
  refine ⟨clauses ++ [clause], ?_, has.concat adds, adds.select.trans select⟩
  rw [List.map_append, List.map_append, areClauses, List.map_singleton, found]
  rfl

/-- A draft that has nothing yet gets what a return step asks for. -/
theorem exists_returns (arranged : plan.IsArranged) (member : step ∈ plan.steps)
    (output : step.operation = .output) {visited : List StepRef}
    (records : findings.Records plan visited)
    (isVisited : ∀ target ∈ step.references, ∀ other, plan.step? target = some other →
      other.isOutput = false → target ∈ visited)
    {id : SubplanId} (untouched : SameReturn { id := id } draft)
    (returned : draft.addReturn plan findings step = .ok result) :
    ∃ collect clauses, result.Returns plan findings step collect clauses := by
  obtain ⟨first, targets, collect, handles, references, found, read, run⟩ :=
    exists_of_addReturn returned
  have isCollect := arranged.divided.collects step member output first (by simp [references])
    collect found
  have arguments := (arranged.forms step member).arguments_eq (by rw [output]; rfl)
  have collected := (arranged.forms collect (List.mem_of_find?_eq_some found)).arguments_eq
    (by rw [isCollect]; rfl)
  have columns := foldl_returnField handles draft
  have start : (handles.foldl returnField draft).HasClauses findings [] :=
    hasClauses_nil (columns.filter.trans untouched.filter) (columns.having.trans untouched.having)
      (columns.sort.trans untouched.sort) (columns.limit.trans untouched.limit)
  obtain ⟨clauses, areClauses, has, select⟩ := exists_hasClauses records
    (fun target listed => isVisited target (by simp [references, listed])) start run
  refine ⟨collect, clauses, ?_, isCollect, ⟨handles, ?_, ?_⟩, has⟩
  · rw [arguments, ← Step.references, references, List.map_map, List.map_cons, List.map_cons,
      ← areClauses, ← found]
    rfl
  · rw [collected, List.forall₂_map_left_iff]
    exact (mapM_eq_ok_iff.mp read).imp fun target handle found =>
      ⟨target, rfl, Findings.eq_some_of_handle found⟩
  · rw [select, columns.select, untouched.select]
    exact foldl_addNew_eq_eraseDups _

/-! ## Runs -/

/-- Only the return step of a subplan gives its draft columns and clauses. -/
theorem Visits.sameReturn (visits : Visits plan built subplan findings draft step after result)
    (other : step.reference ≠ subplan.root) : SameReturn draft result := by
  cases visits with
  | entity | operation | analysis | rowNumber => exact ⟨rfl, rfl, rfl, rfl, rfl⟩
  | retrieval _ read =>
      rcases eq_of_retrieve read with rfl | ⟨source, rfl⟩
      · exact .refl _
      · exact ⟨rfl, rfl, rfl, rfl, rfl⟩
  | @groupBy handles =>
      exact .foldl groupByField (fun _ _ => ⟨rfl, rfl, rfl, rfl, rfl⟩) handles draft
  | sort | limit | collect | inner => exact .refl _
  | root _ isRoot => exact (other isRoot).elim

/-- A visit to the return step of a subplan gives its draft what the step asks for. -/
theorem Visits.exists_returns (visits : Visits plan built subplan findings draft step after result)
    (arranged : plan.IsArranged) (listed : subplan ∈ plan.subplans)
    (found : plan.step? step.reference = some step) (isRoot : step.reference = subplan.root)
    {visited before rest : List StepRef}
    (steps : plan.stepsOf subplan = before ++ step.reference :: rest)
    (records : findings.Records plan (visited ++ before))
    (untouched : SameReturn { id := subplan.id } draft) :
    ∃ collect clauses, result.Returns plan findings step collect clauses := by
  have member := List.mem_of_find?_eq_some found
  have output := arranged.operation_of_root listed (isRoot ▸ found)
  have references : step.dependencies = step.references :=
    Step.dependencies_eq_references (by simp [output])
  have holds := (arranged.decomposed.has_iff subplan listed _).mpr (.inl isRoot)
  have belongs : plan.Belongs subplan step := ⟨arranged.divided, listed, found, holds⟩
  have isVisited : ∀ target ∈ step.references, ∀ other, plan.step? target = some other →
      other.isOutput = false → target ∈ visited ++ before := by
    intro target reads other isOther noOutput
    rw [← references] at reads
    have holds := (belongs.of_reads reads isOther noOutput).holds
    obtain rfl := Plan.reference_of_step? isOther
    exact List.mem_append_right _ (arranged.mem_before_of_reads member steps reads holds)
  have category : step.operation.category = .output := by rw [output]; rfl
  cases visits with
  | root _ _ returned =>
      exact Draft.exists_returns arranged member output records isVisited untouched returned
  -- The other visits are to steps of other categories, or to other return steps.
  | _ => simp_all

/-- The draft of a subplan has what its return step asks for. -/
theorem exists_returns_of_buildNext (arranged : plan.IsArranged) {earlier later : List Subplan}
    (whole : plan.subplans = earlier ++ subplan :: later) {state next : Findings × List Draft}
    (records : state.1.Records plan (earlier.flatMap plan.stepsOf)) {root : Step}
    (isRoot : plan.step? subplan.root = some root)
    (built : buildNext plan state subplan = .ok next) :
    ∃ draft, next.2 = state.2 ++ [draft] ∧ state.1.KeptIn next.1 ∧
      next.1.Records plan ((earlier ++ [subplan]).flatMap plan.stepsOf) ∧
      ∃ collect clauses, draft.Returns plan next.1 root collect clauses := by
  have listed : subplan ∈ plan.subplans := by simp [whole]
  have isVisited : subplan.root ∈ plan.stepsOf subplan :=
    arranged.mem_stepsOf listed ((arranged.decomposed.has_iff subplan listed _).mpr (.inl rfl))
  obtain ⟨draft, drafts, kept, recorded, -, returns⟩ := buildNext_records arranged whole records
    (fun before findings draft =>
      (subplan.root ∉ before → SameReturn { id := subplan.id } draft) ∧
        (subplan.root ∈ before →
          ∃ collect clauses, draft.Returns plan findings root collect clauses))
    (fun before step rest findings draft after result steps found records kept visits asked => by
      obtain ⟨untouched, returns⟩ := asked
      by_cases same : step.reference = subplan.root
      · have fresh : subplan.root ∉ before := fun member =>
          arranged.not_mem_visited whole steps (List.mem_append_right _ (same ▸ member))
        refine ⟨fun missing => (missing (by simp [same])).elim, fun _ => ?_⟩
        obtain ⟨collect, clauses, returns⟩ :=
          visits.exists_returns arranged listed found same steps records (untouched fresh)
        rw [same, isRoot] at found
        cases found
        exact ⟨collect, clauses, returns.mono kept⟩
      · have sameReturn := visits.sameReturn same
        have earlier_of_mem (member : subplan.root ∈ before ++ [step.reference]) :
            subplan.root ∈ before :=
          (List.mem_append.mp member).resolve_right fun last => same (List.mem_singleton.mp last).symm
        refine ⟨fun missing => ?_, fun member => ?_⟩
        · exact (untouched fun member => missing (List.mem_append_left _ member)).trans sameReturn
        · obtain ⟨collect, clauses, returns⟩ := returns (earlier_of_mem member)
          exact ⟨collect, clauses, (sameReturn.returns returns).mono kept⟩)
    ⟨fun _ => .refl _, nofun⟩ built
  exact ⟨draft, drafts, kept, recorded, returns isVisited⟩

end Draft

namespace Plan

variable {plan : Plan}

/-- Every subplan has a draft that has what the return step of the subplan asks for. -/
theorem IsArranged.exists_returns (arranged : plan.IsArranged) {drafts : List Draft}
    (drafted : plan.drafts = .ok drafts) :
    ∃ findings, plan.findings = .ok findings ∧ ∀ subplan ∈ plan.subplans, ∀ root,
      plan.step? subplan.root = some root → ∃ draft ∈ drafts, draft.id = subplan.id ∧
        ∃ collect clauses, draft.Returns plan findings root collect clauses := by
  obtain ⟨⟨findings, built⟩, run, rfl⟩ := map_eq_ok_iff.mp drafted
  refine ⟨findings, map_eq_ok_iff.mpr ⟨_, run, rfl⟩, ?_⟩
  obtain ⟨-, -, returned⟩ := foldlM_keeps_prefix
    (fun visited (state : Findings × List Draft) => Draft.IsBuilt plan visited state ∧
      state.1.Records plan (visited.flatMap plan.stepsOf) ∧
      ∀ subplan ∈ visited, ∀ root, plan.step? subplan.root = some root →
        ∃ draft ∈ state.2, draft.id = subplan.id ∧
          ∃ collect clauses, draft.Returns plan state.1 root collect clauses)
    (fun visited subplan later state next whole ⟨isBuilt, records, returned⟩ built => by
      have listed : subplan ∈ plan.subplans := by simp [whole]
      have nextBuilt := Draft.isBuilt_buildNext arranged.divided whole isBuilt built
      obtain ⟨root, isRoot⟩ := arranged.exists_step_of_node (arranged.mem_nodes_of_has listed
        ((arranged.decomposed.has_iff subplan listed _).mpr (.inl rfl)))
      obtain ⟨draft, drafts, kept, recorded, collect, clauses, returns⟩ :=
        Draft.exists_returns_of_buildNext arranged whole records isRoot built
      have sameId : draft.id = subplan.id := by
        have ids := nextBuilt.ids
        rw [drafts, List.map_append, List.map_append, isBuilt.ids] at ids
        simpa using ids
      refine ⟨nextBuilt, recorded, ?_⟩
      rw [drafts]
      refine List.forall_mem_append.mpr ⟨fun other isVisited root isRoot => ?_,
        List.forall_mem_singleton.mpr fun other isOther => ?_⟩
      · obtain ⟨found, member, sameId, collect, clauses, returns⟩ :=
          returned other isVisited root isRoot
        exact ⟨found, List.mem_append_left _ member, sameId, collect, clauses, returns.mono kept⟩
      · rw [isRoot] at isOther
        cases isOther
        exact ⟨draft, by simp, sameId, collect, clauses, returns⟩)
    ⟨Draft.isBuilt_nil plan, Findings.records_nil plan, nofun⟩ run
  exact returned

/-- The draft of every return step's subplan has what the step asks for, but of its limits only the
last: all of them are kept if they are the same. -/
def AreReturned (plan : Plan) (findings : Findings) (drafts : List Draft) : Prop :=
  ∀ step ∈ plan.steps, step.operation = .output →
    ∃ subplan ∈ plan.subplans, subplan.root = step.reference ∧
      ∃ draft ∈ drafts, draft.id = subplan.id ∧
        ∃ collect clauses, draft.Returns plan findings step collect clauses ∧
          ((∀ clause ∈ clauses, clause.operation = .limit → draft.limit = clause.limit?) ↔
            ∀ first ∈ clauses, ∀ second ∈ clauses, first.operation = .limit →
              second.operation = .limit → first.limit? = second.limit?)

end Plan

/-- What a return step lists is in the draft of its subplan: the columns of the collect step without
repetitions, each predicate as the filter or the condition on groups, and the keys of all sorts in
order.  The number of the last limit is the limit, so that every limit is kept only if no two differ. -/
theorem drafts_return_clauses {raw : Entries String String} {plan : Plan} {drafts : List Draft}
    (parsed : Plan.parse raw = .ok plan) (drafted : plan.drafts = .ok drafts) :
    ∃ findings, plan.findings = .ok findings ∧ plan.AreReturned findings drafts := by
  have arranged := Plan.isArranged_of_parse parsed
  obtain ⟨findings, found, returned⟩ := arranged.exists_returns drafted
  refine ⟨findings, found, fun step member output => ?_⟩
  obtain ⟨subplan, listed, isRoot⟩ := List.mem_map.mp
    ((arranged.decomposed.mem_roots_iff step.reference).mpr
      ⟨step, member, rfl, decide_eq_true output⟩)
  obtain ⟨draft, isBuilt, sameId, collect, clauses, returns⟩ :=
    returned subplan listed step (isRoot ▸ arranged.step?_reference member)
  exact ⟨subplan, listed, isRoot, draft, isBuilt, sameId, collect, clauses, returns,
    returns.hasClauses.limit_iff⟩

/-- The names and ages of the oldest people above an age, with clauses in no particular order and a
name that is collected twice. -/
def oldestPeople : Entries String String :=
  [("|1|", "(retrieve_entity Person)"), ("|2|", "(retrieve_attribute |1| age)"),
    ("|3|", "(retrieve_attribute |1| name)"), ("|4|", "(greaterthan |2| 30)"),
    ("|5|", "(sort |2| desc)"), ("|6|", "(sort |3| asc)"), ("|7|", "(limit 5)"),
    ("|8|", "(collect |3| |2| |3|)"), ("|9|", "(return |8| |5| |7| |4| |6|)")]

theorem drafts_return_clauses_oldestPeople :
    ∃ plan drafts, Plan.parse oldestPeople = .ok plan ∧ plan.drafts = .ok drafts ∧
      drafts.map (fun draft => (draft.select, draft.sort, draft.limit)) =
        [(["Person//name", "Person//age"],
          [⟨"Person//age", .descending⟩, ⟨"Person//name", .ascending⟩], some 5)] ∧
      ∃ findings, plan.findings = .ok findings ∧ plan.AreReturned findings drafts := by
  have runs : (Plan.parse oldestPeople >>= fun plan => plan.drafts.map fun drafts =>
      drafts.map fun draft => (draft.select, draft.sort, draft.limit)) =
        .ok [(["Person//name", "Person//age"],
          [⟨"Person//age", .descending⟩, ⟨"Person//name", .ascending⟩], some 5)] := by
    decide +kernel
  obtain ⟨plan, parsed, runs⟩ := bind_eq_ok_iff.mp runs
  obtain ⟨drafts, drafted, parts⟩ := map_eq_ok_iff.mp runs
  exact ⟨plan, drafts, parsed, drafted, parts, drafts_return_clauses parsed drafted⟩

def twiceLimitedAges : Entries String String :=
  [("|1|", "(retrieve_entity Person)"), ("|2|", "(retrieve_attribute |1| age)"),
    ("|3|", "(collect |2|)"), ("|4|", "(limit 5)"), ("|5|", "(limit 3)"),
    ("|6|", "(return |3| |4| |5|)")]

/-- Of two different limits of a return step only one is kept. -/
theorem exists_limit_dropped :
    ∃ plan drafts, Plan.parse twiceLimitedAges = .ok plan ∧ plan.drafts = .ok drafts ∧
      drafts.map (·.limit) = [some 3] ∧ ∃ step ∈ plan.steps, step.operation = .output ∧
        ∃ clause ∈ plan.steps, .reference clause.reference ∈ step.arguments ∧
          clause.operation = .limit ∧ clause.limit? = some 5 := by
  have runs : (Plan.parse twiceLimitedAges >>= fun plan => plan.drafts.map fun drafts =>
      decide (drafts.map (·.limit) = [some 3] ∧ ∃ step ∈ plan.steps, step.operation = .output ∧
        ∃ clause ∈ plan.steps, .reference clause.reference ∈ step.arguments ∧
          clause.operation = .limit ∧ clause.limit? = some 5)) = .ok true := by
    decide +kernel
  obtain ⟨plan, parsed, runs⟩ := bind_eq_ok_iff.mp runs
  obtain ⟨drafts, drafted, dropped⟩ := map_eq_ok_iff.mp runs
  exact ⟨plan, drafts, parsed, drafted, of_decide_eq_true dropped⟩

end SemanticQuery
