import SemanticQuery.Plan.Describe
import SemanticQuery.Proofs.Draft.Sources
import SemanticQuery.Proofs.Step.Form

/-!
# What drafts are drawn from

Every handle of a draft is drawn from the steps of the plan and from drafts before it.  A column of
another subplan is one that an earlier draft returns; an operation has as many operands as its step has
arguments, groupings of an analysis apart; a row number has keys with directions.  Whatever a draft
returns, groups or sorts by is a column of its own.
-/

namespace SemanticQuery

/-- How many of a step's arguments become operands: an analysis leaves out references to groupings. -/
def Plan.operandCount (plan : Plan) (step : Step) : Nat :=
  if step.operation.isAnalysis then (step.arguments.filter fun a => !plan.isGrouping a).length
  else step.arguments.length

/-- The operands of a row number: keys, each with its direction. -/
def Operand.keys (pairs : List (Handle × Direction)) : List Operand :=
  pairs.flatMap fun pair => [.handle pair.1, .direction pair.2]

inductive Handle.IsDrawn (plan : Plan) (built : List Draft) : Handle → Prop where
  | field (entity name : String) : IsDrawn plan built (.field entity name)
  | column {draft : Draft} (member : draft ∈ built) {name : String} (exposed : name ∈ draft.select)
      (origin : Handle) : IsDrawn plan built (.column draft.id name origin)
  | applied {step : Step} (member : step ∈ plan.steps)
      (isApplied : Step.isApplied step.operation = true) {operands : List Operand}
      (count : operands.length = plan.operandCount step)
      (noDirection : ∀ direction, .direction direction ∉ operands)
      (each : ∀ inner, .handle inner ∈ operands → IsDrawn plan built inner) :
      IsDrawn plan built (.expression step.operation operands)
  | rowNumber {pairs : List (Handle × Direction)}
      (each : ∀ pair ∈ pairs, IsDrawn plan built pair.1) :
      IsDrawn plan built (.expression .rowNumber (Operand.keys pairs))

theorem Handle.IsDrawn.mono {plan : Plan} {built more : List Draft} {handle : Handle}
    (drawn : handle.IsDrawn plan built) (grown : built ⊆ more) : handle.IsDrawn plan more := by
  induction drawn with
  | field entity name => exact .field entity name
  | column member exposed origin => exact .column (grown member) exposed origin
  | applied member isApplied count noDirection _ ih =>
      exact .applied member isApplied count noDirection ih
  | rowNumber _ ih => exact .rowNumber ih

/-! ## Operands -/

namespace Findings

variable {plan : Plan} {findings : Findings} {step : Step}

/-- The operands of arguments are those that are literals or included references, and no direction is
among them. -/
theorem operands_counted {included : StepRef → Bool} {arguments : List Argument}
    {operands : List Operand} (read : findings.operands step included arguments = .ok operands) :
    operands.length = (arguments.filter fun a => a.reference?.all included).length ∧
      ∀ direction, .direction direction ∉ operands := by
  induction arguments generalizing operands with
  | nil =>
      cases read
      exact ⟨rfl, nofun⟩
  | cons argument rest ih =>
      cases argument with
      | literal value =>
          rw [Findings.operands] at read
          obtain ⟨others, othersRead, same⟩ := bind_eq_ok_iff.mp read
          cases same
          obtain ⟨count, noDirection⟩ := ih othersRead
          refine ⟨by simp [Argument.reference?, count], ?_⟩
          intro direction member
          rcases List.mem_cons.mp member with impossible | later
          · cases impossible
          · exact noDirection direction later
      | reference target =>
          rw [Findings.operands] at read
          split at read
          · rename_i isIncluded
            obtain ⟨found, -, read⟩ := bind_eq_ok_iff.mp read
            obtain ⟨others, othersRead, same⟩ := bind_eq_ok_iff.mp read
            cases same
            obtain ⟨count, noDirection⟩ := ih othersRead
            refine ⟨by simp [Argument.reference?, isIncluded, count], ?_⟩
            intro direction member
            rcases List.mem_cons.mp member with impossible | later
            · cases impossible
            · exact noDirection direction later
          · rename_i notIncluded
            obtain ⟨count, noDirection⟩ := ih read
            exact ⟨by simp [Argument.reference?, notIncluded, count], noDirection⟩

theorem length_operands {operands : List Operand} (noAnalysis : step.operation.isAnalysis = false)
    (read : findings.operands step (fun _ => true) step.arguments = .ok operands) :
    operands.length = plan.operandCount step := by
  have whole : step.arguments.filter (fun a => a.reference?.all fun _ => true) = step.arguments := by
    simp
  rw [(operands_counted read).1, whole, Plan.operandCount, noAnalysis]
  rfl

theorem length_operands_of_analysis {operands : List Operand}
    (analysis : step.operation.isAnalysis = true)
    (read : findings.operands step (Draft.isNoGrouping plan) step.arguments = .ok operands) :
    operands.length = plan.operandCount step := by
  have same (a : Argument) : a.reference?.all (Draft.isNoGrouping plan) = !plan.isGrouping a := by
    unfold Plan.isGrouping
    cases a with
    | literal value => rfl
    | reference target =>
        simp only [Argument.reference?, Option.all_some, Option.bind_some, Draft.isNoGrouping]
        cases plan.step? target with
        | none => rfl
        | some other => simp
  rw [(operands_counted read).1, Plan.operandCount, if_pos analysis]
  simp only [same]

end Findings

/-! ## Visits -/

structure Findings.AreDrawn (plan : Plan) (built : List Draft) (findings : Findings) : Prop where
  handles : ∀ reference handle, findings.handles.get? reference = some handle →
    handle.IsDrawn plan built
  sorts : ∀ reference pairs, findings.sorts.get? reference = some pairs →
    ∀ pair ∈ pairs, pair.1.IsDrawn plan built

namespace Findings.AreDrawn

variable {plan : Plan} {built : List Draft} {findings : Findings} {step : Step}

theorem mono {more : List Draft} (drawn : findings.AreDrawn plan built) (grown : built ⊆ more) :
    findings.AreDrawn plan more where
  handles := fun reference handle found => (drawn.handles reference handle found).mono grown
  sorts := fun reference pairs found pair member =>
    (drawn.sorts reference pairs found pair member).mono grown

theorem put_handle (drawn : findings.AreDrawn plan built) {reference : StepRef} {handle : Handle}
    (isDrawn : handle.IsDrawn plan built) :
    AreDrawn plan built { findings with handles := findings.handles.put reference handle } where
  handles := by
    intro other known isKnown
    rw [Entries.get?_put] at isKnown
    split at isKnown
    · cases isKnown
      exact isDrawn
    · exact drawn.handles other known isKnown
  sorts := drawn.sorts

theorem isDrawn_of_handle (drawn : findings.AreDrawn plan built) {target : StepRef} {handle : Handle}
    (found : findings.handle step target = .ok handle) : handle.IsDrawn plan built :=
  drawn.handles target handle (eq_some_of_handle found)

/-- The expression of a step over what was found is drawn. -/
theorem applied (drawn : findings.AreDrawn plan built) (member : step ∈ plan.steps)
    (isApplied : Step.isApplied step.operation = true) {included : StepRef → Bool}
    {operands : List Operand}
    (read : findings.operands step included step.arguments = .ok operands)
    (count : operands.length = plan.operandCount step) :
    (Handle.expression step.operation operands).IsDrawn plan built := by
  refine .applied member isApplied count (operands_counted read).2 ?_
  intro inner operand
  obtain ⟨target, -, found⟩ := exists_of_mem_operands read operand
  exact drawn.isDrawn_of_handle found

end Findings.AreDrawn

namespace Draft

variable {plan : Plan} {built : List Draft} {subplan : Subplan} {findings after : Findings}
  {draft result : Draft} {step : Step}

def usedColumns (draft : Draft) : List String :=
  draft.select ++ draft.groupBy ++ draft.sort.map (·.column)

structure IsDrawn (plan : Plan) (built : List Draft) (draft : Draft) : Prop where
  handles : ∀ handle ∈ draft.handles, handle.IsDrawn plan built
  columns : ∀ name ∈ draft.usedColumns, name ∈ draft.fields.map (·.1)
  sources : ∀ id, .subplan id ∈ draft.sources → id ∈ built.map (·.id)

theorem isDrawn_new (plan : Plan) (built : List Draft) (id : SubplanId) :
    IsDrawn plan built { id } :=
  ⟨nofun, nofun, nofun⟩

/-- Making a handle's column known and using it keeps a draft drawn. -/
theorem IsDrawn.addColumn (drawn : draft.IsDrawn plan built) {handle : Handle}
    (isDrawn : handle.IsDrawn plan built) (adds : AddsField draft handle result)
    (used : ∀ name ∈ result.usedColumns, name = handle.columnName ∨ name ∈ draft.usedColumns) :
    result.IsDrawn plan built := by
  refine ⟨?_, ?_, by rw [adds.sources]; exact drawn.sources⟩
  · intro other member
    rcases adds.handles_cases member with earlier | rfl
    · exact drawn.handles other earlier
    · exact isDrawn
  · intro name member
    rw [adds.fields, Entries.map_fst_putNew, mem_addNew]
    exact ((used name member).imp_right (drawn.columns name)).symm

theorem IsDrawn.returnField (drawn : draft.IsDrawn plan built) {handle : Handle}
    (isDrawn : handle.IsDrawn plan built) : (draft.returnField handle).IsDrawn plan built := by
  refine drawn.addColumn isDrawn (draft.addsField_returnField handle) ?_
  intro name member
  simp only [usedColumns, Draft.returnField, addSelect, addField, List.mem_append, mem_addNew]
    at member ⊢
  grind

theorem IsDrawn.groupByField (drawn : draft.IsDrawn plan built) {handle : Handle}
    (isDrawn : handle.IsDrawn plan built) : (draft.groupByField handle).IsDrawn plan built := by
  refine drawn.addColumn isDrawn (draft.addsField_groupByField handle) ?_
  intro name member
  simp only [usedColumns, Draft.groupByField, addGroupBy, addField, List.mem_append, mem_addNew]
    at member ⊢
  grind

theorem IsDrawn.sortByField (drawn : draft.IsDrawn plan built) {key : Handle × Direction}
    (isDrawn : key.1.IsDrawn plan built) : (draft.sortByField key).IsDrawn plan built := by
  refine drawn.addColumn isDrawn (draft.addsField_sortByField key) ?_
  intro name member
  simp only [usedColumns, Draft.sortByField, addField, List.mem_append, List.map_append,
    List.map_singleton, List.mem_singleton] at member ⊢
  grind

theorem IsDrawn.addSource (drawn : draft.IsDrawn plan built) {source : Source}
    (known : ∀ id ∈ source.subplan?, id ∈ built.map (·.id)) :
    (draft.addSource source).IsDrawn plan built := by
  refine ⟨drawn.handles, drawn.columns, ?_⟩
  intro id member
  rcases mem_addNew.mp member with earlier | rfl
  · exact drawn.sources id earlier
  · exact known id rfl

theorem Places.isDrawn {predicate : Handle} (places : Places draft predicate result)
    (drawn : draft.IsDrawn plan built) (isDrawn : predicate.IsDrawn plan built) :
    result.IsDrawn plan built := by
  have handles : ∀ handle ∈ result.handles, handle.IsDrawn plan built := by
    intro handle member
    rcases places.handles_cases member with earlier | rfl
    · exact drawn.handles handle earlier
    · exact isDrawn
  cases places with
  | having | filter => exact ⟨handles, drawn.columns, drawn.sources⟩

theorem IsDrawn.addClause (drawn : draft.IsDrawn plan built) (known : findings.AreDrawn plan built)
    {target : StepRef} (added : addClause plan findings step draft target = .ok result) :
    result.IsDrawn plan built := by
  obtain ⟨clause, -, -, takes⟩ := exists_takesClause added
  cases takes with
  | predicate _ read places => exact places.isDrawn drawn (known.isDrawn_of_handle read)
  | sort =>
      refine List.foldlRecOn _ _ drawn fun before isDrawn pair member => isDrawn.sortByField ?_
      cases keys : findings.sorts.get? clause.reference with
      | none =>
          rw [keys] at member
          cases member
      | some pairs =>
          rw [keys] at member
          exact known.sorts clause.reference pairs keys pair member
  | limit => exact ⟨drawn.handles, drawn.columns, drawn.sources⟩

theorem IsDrawn.addReturn (drawn : draft.IsDrawn plan built) (known : findings.AreDrawn plan built)
    (returned : draft.addReturn plan findings step = .ok result) : result.IsDrawn plan built := by
  obtain ⟨_, _, _, handles, -, -, read, run⟩ := exists_of_addReturn returned
  have collected : (handles.foldl Draft.returnField draft).IsDrawn plan built := by
    refine List.foldlRecOn _ _ drawn fun before isDrawn handle member => isDrawn.returnField ?_
    obtain ⟨target, -, found⟩ := exists_of_mem_mapM read member
    exact known.isDrawn_of_handle found
  exact foldlM_keeps (IsDrawn plan built)
    (fun before target after isDrawn added => isDrawn.addClause known added) collected run

/-- A visit keeps what was found and the draft drawn. -/
theorem Visits.isDrawn (visits : Visits plan built subplan findings draft step after result)
    (member : step ∈ plan.steps) (known : findings.AreDrawn plan built)
    (drawn : draft.IsDrawn plan built) :
    after.AreDrawn plan built ∧ result.IsDrawn plan built := by
  have kept : IsDrawn plan built draft → ∀ handle reference,
      (draft.addOrigin handle reference).IsDrawn plan built :=
    fun drawn _ _ => ⟨drawn.handles, drawn.columns, drawn.sources⟩
  cases visits with
  | entity => exact ⟨⟨known.handles, known.sorts⟩, drawn.addSource nofun⟩
  | retrieval _ read =>
      rcases retrieve_cases read with ⟨_, -, ⟨entity, name, -, -, rfl, rfl⟩ |
        ⟨_, -, -, other, isBuilt, -, column, exposed, origin, -, rfl, rfl⟩⟩
      · exact ⟨known.put_handle (.field entity name), drawn⟩
      · refine ⟨known.put_handle (.column isBuilt exposed origin), drawn.addSource ?_⟩
        rintro _ ⟨⟩
        exact List.mem_map_of_mem isBuilt
  | operation category read =>
      have isApplied : Step.isApplied step.operation = true := by
        rcases category with category | category <;> simp [Step.isApplied, category]
      have noAnalysis : step.operation.isAnalysis = false := by
        rcases category with category | category <;> simp [Operation.isAnalysis, category]
      exact ⟨known.put_handle
        (known.applied member isApplied read (Findings.length_operands noAnalysis read)),
        kept drawn _ _⟩
  | analysis category read =>
      have analysis : step.operation.isAnalysis = true := by simp [Operation.isAnalysis, category]
      exact ⟨known.put_handle (known.applied member (by simp [Step.isApplied, category]) read
        (Findings.length_operands_of_analysis analysis read)), kept drawn _ _⟩
  | @rowNumber pairs category read =>
      have operation : step.operation = .rowNumber :=
        Operation.eq_of_category category (by decide)
      obtain ⟨target, -, found⟩ := exists_of_sortOf read
      have isDrawn : (Handle.expression step.operation (Operand.keys pairs)).IsDrawn plan built := by
        rw [operation]
        exact .rowNumber (known.sorts target pairs found)
      exact ⟨known.put_handle isDrawn, kept drawn _ _⟩
  | groupBy _ read =>
      refine ⟨known, List.foldlRecOn _ _ drawn fun before isDrawn handle member =>
        isDrawn.groupByField ?_⟩
      obtain ⟨target, -, found⟩ := exists_of_mem_mapM read member
      exact known.isDrawn_of_handle found
  | @sort pairs _ read =>
      refine ⟨⟨known.handles, ?_⟩, drawn⟩
      intro other keys isKeys pair pairMember
      rw [Entries.get?_put] at isKeys
      split at isKeys
      · cases isKeys
        obtain ⟨target, -, found⟩ := Findings.exists_of_mem_sortPairs read pairMember
        exact known.isDrawn_of_handle found
      · exact known.sorts other keys isKeys pair pairMember
  | limit => exact ⟨⟨known.handles, known.sorts⟩, drawn⟩
  | collect | inner => exact ⟨known, drawn⟩
  | root _ _ returned => exact ⟨known, drawn.addReturn known returned⟩

/-! ## Runs -/

def AreDrawn (plan : Plan) (drafts : List Draft) : Prop :=
  ∀ before draft later, drafts = before ++ draft :: later → draft.IsDrawn plan before

theorem AreDrawn.concat {drafts : List Draft} (drawn : AreDrawn plan drafts)
    (last : draft.IsDrawn plan drafts) : AreDrawn plan (drafts ++ [draft]) :=
  fun _ _ _ whole => forall_split_concat drawn last whole

theorem areDrawn_buildNext {state after : Findings × List Draft}
    (drawn : state.1.AreDrawn plan state.2 ∧ AreDrawn plan state.2)
    (built : buildNext plan state subplan = .ok after) :
    after.1.AreDrawn plan after.2 ∧ AreDrawn plan after.2 := by
  obtain ⟨draft, drafts, known, isDrawn⟩ := buildNext_keeps
    (fun findings draft => findings.AreDrawn plan state.2 ∧ draft.IsDrawn plan state.2)
    (fun _ _ _ _ _ _ found visits holds =>
      visits.isDrawn (List.mem_of_find?_eq_some found) holds.1 holds.2)
    ⟨drawn.1, isDrawn_new plan state.2 subplan.id⟩ built
  rw [drafts]
  exact ⟨known.mono (List.subset_append_left _ _), drawn.2.concat isDrawn⟩

end Draft

/-- The drafts of a plan are drawn from it, each after those that it reads. -/
theorem Plan.areDrawn_of_drafts {plan : Plan} {drafts : List Draft}
    (drafted : plan.drafts = .ok drafts) : Draft.AreDrawn plan drafts := by
  obtain ⟨⟨findings, built⟩, run, rfl⟩ := map_eq_ok_iff.mp drafted
  have start : Findings.AreDrawn plan [] {} ∧ Draft.AreDrawn plan [] :=
    ⟨⟨nofun, nofun⟩, fun before draft later whole => by simp at whole⟩
  exact (foldlM_keeps
    (fun state : Findings × List Draft =>
      state.1.AreDrawn plan state.2 ∧ Draft.AreDrawn plan state.2)
    (fun _ _ _ drawn built => Draft.areDrawn_buildNext drawn built) start run).2

end SemanticQuery
