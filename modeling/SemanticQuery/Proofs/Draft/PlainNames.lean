import SemanticQuery.Plan.Parse
import SemanticQuery.Proofs.Draft.Registration
import SemanticQuery.Proofs.Handle.ColumnName

/-!
# Names that keep columns apart

Two handles of a draft whose names are equal share one column.  In a plan that picks no value of a
group, whose texts hold no delimiters and in which each literal text is written in one way, this
does not happen: the names of all columns tell their handles apart.
-/

namespace SemanticQuery

structure Plan.IsPlain (isQuoted : String → Bool) (plan : Plan) : Prop where
  noPick : ∀ step ∈ plan.steps, step.operation ≠ .getOne
  entities : ∀ step ∈ plan.steps, step.operation = .retrieveEntity →
    IsPlainEntity (Draft.firstContent step)
  /-- The names of attributes that are read off entities. -/
  attributes : ∀ step ∈ plan.steps, ∀ target name rest source,
    step.arguments = .reference target :: name :: rest → plan.step? target = some source →
    source.operation = .retrieveEntity → HasNoDelimiter name.content
  /-- The literal operands of expressions. -/
  literals : ∀ step ∈ plan.steps,
    step.operation.category = .predicate ∨ step.operation.category = .arithmetic ∨
      step.operation.category = .analysis →
    ∀ literal, .literal literal ∈ step.arguments → IsPlainLiteral isQuoted literal

structure Findings.ArePlain (isQuoted : String → Bool) (plan : Plan) (findings : Findings) :
    Prop where
  handles : ∀ entry ∈ findings.handles, entry.2.IsPlain isQuoted
  sorts : ∀ entry ∈ findings.sorts, ∀ pair ∈ entry.2, pair.1.IsPlain isQuoted
  entities : ∀ target entity, findings.entities.get? target = some entity →
    ∃ step, plan.step? target = some step ∧ step.operation = .retrieveEntity ∧
      entity = Draft.firstContent step

/-- The columns of a draft are plain and known by their names. -/
def Draft.HasPlainFields (isQuoted : String → Bool) (draft : Draft) : Prop :=
  ∀ entry ∈ draft.fields, entry.2.columnName = entry.1 ∧ entry.2.IsPlain isQuoted

theorem Plan.mem_steps_of_step? {plan : Plan} {reference : StepRef} {step : Step}
    (found : plan.step? reference = some step) : step ∈ plan.steps :=
  List.mem_of_find?_eq_some found

section Found

variable {isQuoted : String → Bool} {plan : Plan} {findings : Findings} {step : Step}

theorem Findings.isPlain_of_handle (plain : findings.ArePlain isQuoted plan) {target : StepRef}
    {handle : Handle} (found : findings.handle step target = .ok handle) :
    handle.IsPlain isQuoted := by
  unfold Findings.handle at found
  split at found
  · rename_i known isKnown
    cases found
    exact plain.handles _ (Entries.mem_of_get? isKnown)
  · cases found

/-- The operands of arguments are their literals and handles that were found. -/
theorem Findings.operand_cases (plain : findings.ArePlain isQuoted plan)
    {included : StepRef → Bool} {arguments : List Argument} {operands : List Operand}
    (read : findings.operands step included arguments = .ok operands) {operand : Operand}
    (member : operand ∈ operands) :
    (∃ handle, operand = .handle handle ∧ handle.IsPlain isQuoted) ∨
      ∃ literal, operand = .literal literal ∧ .literal literal ∈ arguments := by
  induction arguments generalizing operands with
  | nil =>
      cases read
      cases member
  | cons argument rest ih =>
      have later {others : List Operand}
          (othersRead : findings.operands step included rest = .ok others)
          (otherMember : operand ∈ others) :
          (∃ handle, operand = .handle handle ∧ handle.IsPlain isQuoted) ∨
            ∃ literal, operand = .literal literal ∧ .literal literal ∈ argument :: rest := by
        refine (ih othersRead otherMember).imp_right ?_
        rintro ⟨literal, same, literalMember⟩
        exact ⟨literal, same, List.mem_cons_of_mem _ literalMember⟩
      cases argument with
      | literal value =>
          rw [Findings.operands] at read
          obtain ⟨others, othersRead, same⟩ := bind_eq_ok_iff.mp read
          cases same
          rcases List.mem_cons.mp member with rfl | otherMember
          · exact .inr ⟨value, rfl, List.mem_cons_self⟩
          · exact later othersRead otherMember
      | reference target =>
          rw [Findings.operands] at read
          split at read
          · obtain ⟨handle, found, read⟩ := bind_eq_ok_iff.mp read
            obtain ⟨others, othersRead, same⟩ := bind_eq_ok_iff.mp read
            cases same
            rcases List.mem_cons.mp member with rfl | otherMember
            · exact .inl ⟨handle, rfl, isPlain_of_handle plain found⟩
            · exact later othersRead otherMember
          · exact later read member

theorem Findings.isPlain_of_sortPairs (plain : findings.ArePlain isQuoted plan)
    {arguments : List Argument} {pairs : List (Handle × Direction)}
    (read : findings.sortPairs step arguments = .ok pairs) :
    ∀ pair ∈ pairs, pair.1.IsPlain isQuoted := by
  fun_induction Findings.sortPairs findings step arguments generalizing pairs with
  | case1 =>
      cases read
      intro pair member
      cases member
  | case2 => cases read
  | case3 => cases read
  | case4 target direction rest ih =>
      obtain ⟨handle, found, read⟩ := bind_eq_ok_iff.mp read
      obtain ⟨others, othersRead, same⟩ := bind_eq_ok_iff.mp read
      cases same
      intro pair member
      rcases List.mem_cons.mp member with rfl | later
      · exact isPlain_of_handle plain found
      · exact ih othersRead pair later

end Found

/-! ## Visits -/

namespace Draft

variable {isQuoted : String → Bool} {plan : Plan} {built : List Draft} {subplan : Subplan}
  {findings : Findings} {draft : Draft} {step : Step}

theorem isPlain_of_retrieve (plainPlan : plan.IsPlain isQuoted)
    (plainBuilt : ∀ other ∈ built, other.HasPlainFields isQuoted)
    (plain : findings.ArePlain isQuoted plan) (member : step ∈ plan.steps) {found : Handle}
    {after : Draft} (read : draft.retrieve plan built findings subplan step = .ok (found, after)) :
    found.IsPlain isQuoted := by
  unfold retrieve at read
  split at read
  · rename_i target name rest arguments
    split at read
    · split at read
      · rename_i entity isEntity
        cases read
        obtain ⟨source, sourceFound, operation, rfl⟩ := plain.entities target entity isEntity
        have sourceMember := Plan.mem_steps_of_step? sourceFound
        exact .field (plainPlan.entities source sourceMember operation)
          (plainPlan.attributes step member target name rest source arguments sourceFound operation)
      · cases read
    · obtain ⟨parent, -, read⟩ := bind_eq_ok_iff.mp read
      split at read
      · cases read
      · rename_i other isBuilt
        obtain ⟨column, -, read⟩ := bind_eq_ok_iff.mp read
        obtain ⟨handle, columnOk, same⟩ := bind_eq_ok_iff.mp read
        cases same
        unfold columnHandle at columnOk
        split at columnOk
        · rename_i origin isField
          split at columnOk
          · cases columnOk
            have fields := plainBuilt other (List.mem_of_find?_eq_some isBuilt)
            obtain ⟨named, originPlain⟩ := fields (column, origin) (Entries.mem_of_get? isField)
            have named : origin.columnName = column := named
            subst named
            exact .column originPlain
          · cases columnOk
        · cases columnOk
  · cases read

theorem arePlain_put {reference : StepRef} {handle : Handle}
    (plain : findings.ArePlain isQuoted plan) (handlePlain : handle.IsPlain isQuoted) :
    Findings.ArePlain isQuoted plan
      { findings with handles := findings.handles.put reference handle } := by
  refine ⟨?_, plain.sorts, plain.entities⟩
  intro entry member
  rcases Entries.mem_of_mem_put member with rfl | earlier
  · exact handlePlain
  · exact plain.handles entry earlier

/-- An expression of literals of its step and of handles that were found is plain. -/
theorem isPlain_expression (plainPlan : plan.IsPlain isQuoted)
    (plain : findings.ArePlain isQuoted plan) (member : step ∈ plan.steps)
    (category : step.operation.category = .predicate ∨ step.operation.category = .arithmetic ∨
      step.operation.category = .analysis)
    {included : StepRef → Bool} {operands : List Operand}
    (read : findings.operands step included step.arguments = .ok operands) :
    Handle.IsPlain isQuoted (.expression step.operation operands) := by
  have noOrder : step.operation ≠ .rowNumber := by
    intro rowNumber
    rw [rowNumber] at category
    revert category
    decide
  refine .expression (plainPlan.noPick step member) ?_ ?_ ?_
  · intro inner operandMember
    rcases Findings.operand_cases plain read operandMember with
      ⟨handle, same, handlePlain⟩ | ⟨literal, same, -⟩
    · cases same
      exact handlePlain
    · cases same
  · intro literal operandMember
    rcases Findings.operand_cases plain read operandMember with
      ⟨handle, same, -⟩ | ⟨found, same, foundMember⟩
    · cases same
    · cases same
      exact ⟨noOrder, plainPlan.literals step member category literal foundMember⟩
  · intro direction operandMember
    rcases Findings.operand_cases plain read operandMember with ⟨_, same, -⟩ | ⟨_, same, -⟩
    · cases same
    · cases same

/-- A row number over keys that were found is plain. -/
theorem isPlain_rowNumber (plain : findings.ArePlain isQuoted plan)
    (category : step.operation.category = .rowNumber) {pairs : List (Handle × Direction)}
    (read : sortOf findings step = .ok pairs) :
    Handle.IsPlain isQuoted (.expression step.operation
      (pairs.flatMap fun pair => [.handle pair.1, .direction pair.2])) := by
  have operation : step.operation = .rowNumber := by
    revert category
    cases step.operation <;> simp [Operation.category]
  have keys : ∀ pair ∈ pairs, pair.1.IsPlain isQuoted := by
    unfold sortOf at read
    split at read
    · split at read
      · rename_i found isFound
        cases read
        exact plain.sorts _ (Entries.mem_of_get? isFound)
      · cases read
    · cases read
  refine .expression (by simp [operation]) ?_ ?_ (fun _ _ => operation)
  · intro inner member
    obtain ⟨pair, pairMember, operand⟩ := List.mem_flatMap.mp member
    simp only [List.mem_cons, Operand.handle.injEq, reduceCtorEq, List.not_mem_nil,
      or_false] at operand
    exact operand ▸ keys pair pairMember
  · intro literal member
    obtain ⟨pair, -, operand⟩ := List.mem_flatMap.mp member
    simp at operand

theorem Visits.arePlain {reference : StepRef} {after : Findings} {result : Draft}
    (plainPlan : plan.IsPlain isQuoted)
    (plainBuilt : ∀ other ∈ built, other.HasPlainFields isQuoted)
    (plain : findings.ArePlain isQuoted plan) (found : plan.step? reference = some step)
    (visits : Visits plan built subplan findings draft step after result) :
    after.ArePlain isQuoted plan := by
  have member := Plan.mem_steps_of_step? found
  cases visits with
  | entity operation =>
      refine ⟨plain.handles, plain.sorts, ?_⟩
      intro target entity isEntity
      rw [Entries.get?_put] at isEntity
      split at isEntity
      · rename_i same
        cases isEntity
        rw [← same, Plan.reference_of_step? found]
        exact ⟨step, found, operation, rfl⟩
      · exact plain.entities target entity isEntity
  | retrieval category read =>
      exact arePlain_put plain (isPlain_of_retrieve plainPlan plainBuilt plain member read)
  | operation category read =>
      have wider : step.operation.category = .predicate ∨ step.operation.category = .arithmetic ∨
          step.operation.category = .analysis := category.imp_right .inl
      exact arePlain_put plain (isPlain_expression plainPlan plain member wider read)
  | analysis category read =>
      exact arePlain_put plain
        (isPlain_expression plainPlan plain member (.inr (.inr category)) read)
  | rowNumber category read => exact arePlain_put plain (isPlain_rowNumber plain category read)
  | sort category read =>
      refine ⟨plain.handles, ?_, plain.entities⟩
      intro entry entryMember
      rcases Entries.mem_of_mem_put entryMember with rfl | earlier
      · exact Findings.isPlain_of_sortPairs plain read
      · exact plain.sorts entry earlier
  | groupBy | collect | inner | root => exact plain
  | limit => exact ⟨plain.handles, plain.sorts, plain.entities⟩

theorem isPlain_of_mem_handlesOf (plain : findings.ArePlain isQuoted plan)
    {references : List StepRef} {handle : Handle}
    (member : handle ∈ handlesOf findings references) : handle.IsPlain isQuoted := by
  obtain ⟨reference, -, found⟩ := List.mem_filterMap.mp member
  exact plain.handles _ (Entries.mem_of_get? found)

theorem isPlain_of_mem_clauseKeys (plain : findings.ArePlain isQuoted plan) {target : StepRef}
    {handle : Handle} (member : handle ∈ clauseKeys plan findings target) :
    handle.IsPlain isQuoted := by
  unfold clauseKeys at member
  split at member
  · split at member
    · obtain ⟨pair, pairMember, rfl⟩ := List.mem_map.mp member
      cases found : findings.sorts.get? target with
      | none =>
          rw [found] at pairMember
          cases pairMember
      | some pairs =>
          rw [found] at pairMember
          exact plain.sorts _ (Entries.mem_of_get? found) pair pairMember
    · cases member
  · cases member

theorem isPlain_of_mem_registrations (plain : findings.ArePlain isQuoted plan)
    {item : Registration} (member : item ∈ registrations plan subplan findings step) :
    item.handle.IsPlain isQuoted := by
  unfold registrations at member
  split at member
  · obtain ⟨handle, handleMember, rfl⟩ := List.mem_map.mp member
    exact isPlain_of_mem_handlesOf plain handleMember
  · split at member
    · rcases List.mem_append.mp member with returned | sorted
      · obtain ⟨handle, handleMember, rfl⟩ := List.mem_map.mp returned
        unfold collected at handleMember
        split at handleMember
        · exact isPlain_of_mem_handlesOf plain handleMember
        · cases handleMember
      · obtain ⟨handle, handleMember, rfl⟩ := List.mem_map.mp sorted
        obtain ⟨target, -, key⟩ := List.mem_flatMap.mp handleMember
        exact isPlain_of_mem_clauseKeys plain key
    · cases member
  · cases member

/-- The visits to the steps of a subplan find and register plain handles only. -/
theorem arePlain_run (plainPlan : plan.IsPlain isQuoted)
    (plainBuilt : ∀ other ∈ built, other.HasPlainFields isQuoted) {references : List StepRef}
    {state final : Findings × Draft} (plain : state.1.ArePlain isQuoted plan)
    (run : references.foldlM (visitRef plan built subplan) state = .ok final) :
    final.1.ArePlain isQuoted plan ∧
      ∀ item ∈ registrationsFrom plan built subplan state references,
        item.handle.IsPlain isQuoted := by
  induction references generalizing state with
  | nil =>
      cases run
      exact ⟨plain, by simp [registrationsFrom]⟩
  | cons reference rest ih =>
      rw [List.foldlM_cons, bind_eq_ok_iff] at run
      obtain ⟨middle, visited, later⟩ := run
      obtain ⟨step, found, visits⟩ := exists_visits_of_visitRef visited
      obtain ⟨finalPlain, others⟩ :=
        ih (visits.arePlain plainPlan plainBuilt plain found) later
      refine ⟨finalPlain, ?_⟩
      intro item member
      rw [registrationsFrom, found, visited] at member
      rcases List.mem_append.mp member with first | other
      · exact isPlain_of_mem_registrations plain first
      · exact others item other

/-- A column that registrations leave was there before or is a registered handle by its name. -/
theorem mem_foldl_putNew (registered : List Registration) (fields : Entries String Handle)
    {entry : String × Handle}
    (member : entry ∈ registered.foldl
      (fun fields item => fields.putNew item.handle.columnName item.handle) fields) :
    entry ∈ fields ∨ ∃ item ∈ registered, entry = (item.handle.columnName, item.handle) := by
  induction registered generalizing fields with
  | nil => exact .inl member
  | cons item rest ih =>
      rcases ih _ member with earlier | ⟨other, otherMember, same⟩
      · rcases Entries.mem_of_mem_putNew earlier with known | new
        · exact .inl known
        · exact .inr ⟨item, List.mem_cons_self, new⟩
      · exact .inr ⟨other, List.mem_cons_of_mem _ otherMember, same⟩

theorem HasRegistered.hasPlainFields {id : SubplanId} {registered : List Registration}
    (whole : HasRegistered { id } registered draft)
    (plain : ∀ item ∈ registered, item.handle.IsPlain isQuoted) :
    draft.HasPlainFields isQuoted := by
  intro entry member
  rw [whole.fields_eq] at member
  rcases mem_foldl_putNew registered _ member with none | ⟨item, itemMember, rfl⟩
  · cases none
  · exact ⟨rfl, plain item itemMember⟩

end Draft

/-! ## A test for plain plans -/

/-- A text that is not quoted, without slashes and delimiters and not like an alias. -/
def Argument.isSimple (argument : Argument) : Bool :=
  argument.literal?.all (!·.isQuoted) && argument.content ≠ "" &&
    !"alias_".toList.isPrefixOf argument.content.toList &&
    argument.content.toList.all fun c => !isDelimiter c && c ≠ '/'

/-- Whether nothing is picked and all texts of a plan are simple. -/
def Plan.isSimple (plan : Plan) : Bool :=
  plan.steps.all fun step => step.operation ≠ .getOne && step.arguments.all Argument.isSimple

theorem Argument.isPlainEntity_of_isSimple {argument : Argument}
    (simple : argument.isSimple = true) : IsPlainEntity argument.content := by
  simp only [isSimple, Bool.and_eq_true, List.all_eq_true] at simple
  obtain ⟨⟨-, notAlias⟩, chars⟩ := simple
  refine ⟨?_, ?_, ?_⟩
  · intro c member
    simpa using (chars c member).1
  · intro slash
    have other := (chars '/' slash).2
    simp at other
  · intro id same
    rw [same, SubplanId.toList_text] at notAlias
    simp at notAlias

theorem Argument.isPlainLiteral_of_isSimple {literal : Literal}
    (simple : (Argument.literal literal).isSimple = true) :
    IsPlainLiteral (fun _ => false) literal := by
  have plain := isPlainEntity_of_isSimple simple
  simp only [isSimple, literal?, content, Bool.and_eq_true, Option.all_some] at simple
  obtain ⟨⟨⟨bare, nonempty⟩, -⟩, -⟩ := simple
  refine ⟨of_decide_eq_true nonempty, plain.noDelimiter, ?_, ?_⟩
  · intro slashes
    exact plain.noSlash (slashes.subset List.mem_cons_self)
  · simpa using bare

theorem Plan.isPlain_of_isSimple {plan : Plan} (simple : plan.isSimple = true) :
    plan.IsPlain fun _ => false := by
  simp only [isSimple, List.all_eq_true, Bool.and_eq_true, decide_eq_true_eq] at simple
  refine ⟨fun step member => (simple step member).1, ?_, ?_, ?_⟩
  · intro step member _
    have arguments := (simple step member).2
    unfold Draft.firstContent
    cases first : step.arguments.head? with
    | none =>
        refine ⟨nofun, nofun, ?_⟩
        intro id same
        have texts := congrArg String.toList same
        rw [SubplanId.toList_text] at texts
        cases texts
    | some argument =>
        exact Argument.isPlainEntity_of_isSimple
          (arguments argument (List.mem_of_mem_head? first))
  · intro step member target name rest source isArguments _ _
    have nameSimple := (simple step member).2 name (by simp [isArguments])
    exact (Argument.isPlainEntity_of_isSimple nameSimple).noDelimiter
  · intro step member _ literal isArgument
    exact Argument.isPlainLiteral_of_isSimple ((simple step member).2 _ isArgument)

/-! ## Whole plans -/

theorem isPlain_of_mem_registrationsFrom {isQuoted : String → Bool} {plan : Plan}
    (plainPlan : plan.IsPlain isQuoted) {subplans : List Subplan}
    {state final : Findings × List Draft} (plain : state.1.ArePlain isQuoted plan)
    (plainBuilt : ∀ draft ∈ state.2, draft.HasPlainFields isQuoted)
    (run : subplans.foldlM (Draft.buildNext plan) state = .ok final) :
    ∀ entry ∈ plan.registrationsFrom state subplans, ∀ item ∈ entry.2,
      item.handle.IsPlain isQuoted := by
  induction subplans generalizing state with
  | nil => simp [Plan.registrationsFrom]
  | cons subplan rest ih =>
      rw [List.foldlM_cons, bind_eq_ok_iff] at run
      obtain ⟨middle, added, later⟩ := run
      rw [Plan.registrationsFrom, added]
      obtain ⟨⟨findings, draft⟩, visited, same⟩ := bind_eq_ok_iff.mp added
      cases same
      obtain ⟨findingsPlain, itemsPlain⟩ := Draft.arePlain_run plainPlan plainBuilt plain visited
      have fieldsPlain := (Draft.hasRegistered_run visited).hasPlainFields itemsPlain
      have others := ih findingsPlain (by
        intro other member
        rcases List.mem_append.mp member with earlier | last
        · exact plainBuilt other earlier
        · exact List.mem_singleton.mp last ▸ fieldsPlain) later
      intro entry member
      rcases List.mem_cons.mp member with rfl | otherMember
      · exact itemsPlain
      · exact others entry otherMember

/-- Each draft holds under every name the first handle of that name that was registered.  So no
column is replaced exactly when the names of the registered handles tell them apart, which they do
in a plain plan. -/
theorem drafts_isRegistered {plan : Plan} {drafts : List Draft}
    (drafted : plan.drafts = .ok drafts) :
    plan.registrations.map (·.1) = plan.subplans ∧
      List.Forall₂ (fun entry draft => draft.id = entry.1.id ∧ IsRegistered entry.2 draft)
        plan.registrations drafts ∧
      ∀ isQuoted, plan.IsPlain isQuoted → ∀ entry ∈ plan.registrations, NamesTell entry.2 := by
  obtain ⟨⟨findings, built⟩, run, rfl⟩ := map_eq_ok_iff.mp drafted
  refine ⟨map_fst_registrationsFrom run, ?_, ?_⟩
  · obtain ⟨drafts, whole, each⟩ := forall₂_registrationsFrom run
    rw [List.nil_append] at whole
    exact whole ▸ each
  · intro isQuoted plain entry member first firstMember second secondMember same
    have empty : Findings.ArePlain isQuoted plan {} := ⟨by simp, by simp, by simp [Entries.get?]⟩
    have plainItems := isPlain_of_mem_registrationsFrom plain empty (by simp) run entry member
    exact (plainItems first firstMember).eq_of_columnName_eq (plainItems second secondMember) same

def raisedAges : Entries String String :=
  [("|1|", "(retrieve_entity Person)"), ("|2|", "(retrieve_attribute |1| name)"),
    ("|3|", "(retrieve_attribute |1| age)"), ("|4|", "(add |3| 1)"), ("|5|", "(add |3| 2)"),
    ("|6|", "(collect |2| |4| |5|)"), ("|7|", "(sort |4| desc)"), ("|8|", "(return |6| |7|)")]

/-- The keys of the sort and the returned columns of this plan are kept. -/
theorem drafts_isRegistered_raisedAges :
    ∃ plan drafts, Plan.parse raisedAges = .ok plan ∧ plan.drafts = .ok drafts ∧
      drafts.map (·.select) = [["Person//name", "add(Person//age,1)", "add(Person//age,2)"]] ∧
      List.Forall₂ (fun entry draft => ∀ item ∈ entry.2,
        draft.fields.get? item.handle.columnName = some item.handle) plan.registrations drafts := by
  have runs : (Plan.parse raisedAges >>= fun plan => plan.drafts.map fun drafts =>
      (plan.isSimple, drafts.map (·.select))) = .ok (true,
        [["Person//name", "add(Person//age,1)", "add(Person//age,2)"]]) := by
    decide +kernel
  obtain ⟨plan, parsed, runs⟩ := bind_eq_ok_iff.mp runs
  obtain ⟨drafts, drafted, parts⟩ := map_eq_ok_iff.mp runs
  obtain ⟨simple, select⟩ := Prod.mk.inj parts
  obtain ⟨-, each, tell⟩ := drafts_isRegistered drafted
  refine ⟨plan, drafts, parsed, drafted, select, ?_⟩
  have plain := tell _ (Plan.isPlain_of_isSimple simple)
  refine List.Forall₂.imp ?_ ((List.forall₂_and_left _ _).mpr ⟨plain, each⟩)
  intro entry draft whole
  exact whole.2.2.kept_iff.mpr whole.1

def pickedAge : Entries String String :=
  [("|1|", "(retrieve_entity Person)"), ("|2|", "(retrieve_attribute |1| age)"),
    ("|3|", "(get_one |2|)"), ("|4|", "(collect |2| |3|)"), ("|5|", "(return |4|)")]

/-- Two handles are returned under one name, and only the first of them is kept. -/
theorem exists_returned_replaced :
    ∃ plan drafts, Plan.parse pickedAge = .ok plan ∧ plan.drafts = .ok drafts ∧
      ∃ entry ∈ plan.registrations, ∃ draft ∈ drafts, draft.id = entry.1.id ∧
        draft.select = ["Person//age"] ∧ ∃ first ∈ entry.2, ∃ second ∈ entry.2,
          first.use = .returned ∧ second.use = .returned ∧ first.handle ≠ second.handle ∧
          draft.fields.get? second.handle.columnName = some first.handle := by
  have runs : (Plan.parse pickedAge >>= fun plan => plan.drafts.map fun drafts =>
      decide (∃ entry ∈ plan.registrations, ∃ draft ∈ drafts, draft.id = entry.1.id ∧
        draft.select = ["Person//age"] ∧ ∃ first ∈ entry.2, ∃ second ∈ entry.2,
          first.use = .returned ∧ second.use = .returned ∧ first.handle ≠ second.handle ∧
          draft.fields.get? second.handle.columnName = some first.handle)) = .ok true := by
    decide +kernel
  obtain ⟨plan, parsed, runs⟩ := bind_eq_ok_iff.mp runs
  obtain ⟨drafts, drafted, replaced⟩ := map_eq_ok_iff.mp runs
  exact ⟨plan, drafts, parsed, drafted, of_decide_eq_true replaced⟩

end SemanticQuery
