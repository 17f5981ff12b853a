import SemanticQuery.Proofs.Draft.Visit
import SemanticQuery.Proofs.Entries

/-!
# Columns that are registered

Drafting makes columns of the keys of groupings, of the operands of a collect step and of the keys
of sorts.  A column is known by its name, and the first handle of a name keeps it.
-/

namespace SemanticQuery

inductive Use where
  | returned
  | grouped
  | sorted
  deriving DecidableEq

structure Registration where
  use : Use
  handle : Handle
  deriving DecidableEq

namespace Draft

def handlesOf (findings : Findings) (references : List StepRef) : List Handle :=
  references.filterMap findings.handles.get?

/-- The operands of the collect step that a return step reads. -/
def collected (plan : Plan) (findings : Findings) (step : Step) : List Handle :=
  match step.references.head?.bind plan.step? with
  | some collect => handlesOf findings collect.references
  | none => []

def clauseKeys (plan : Plan) (findings : Findings) (target : StepRef) : List Handle :=
  match plan.step? target with
  | some clause =>
      if clause.operation.category = .sort then
        ((findings.sorts.get? target).getD []).map (·.1)
      else []
  | none => []

/-- What a visit to a step makes columns of, in order. -/
def registrations (plan : Plan) (subplan : Subplan) (findings : Findings) (step : Step) :
    List Registration :=
  match step.operation.category with
  | .aggregation => (handlesOf findings step.references).map (⟨.grouped, ·⟩)
  | .output =>
      if step.reference = subplan.root then
        (collected plan findings step).map (⟨.returned, ·⟩) ++
          (step.references.tail.flatMap (clauseKeys plan findings)).map (⟨.sorted, ·⟩)
      else []
  | _ => []

def registrationsFrom (plan : Plan) (built : List Draft) (subplan : Subplan) :
    Findings × Draft → List StepRef → List Registration
  | _, [] => []
  | state, reference :: rest =>
      match plan.step? reference, visitRef plan built subplan state reference with
      | some step, .ok after =>
          registrations plan subplan state.1 step ++
            registrationsFrom plan built subplan after rest
      | _, _ => []

end Draft

namespace Plan

/-- What drafting makes columns of in each of some subplans. -/
def registrationsFrom (plan : Plan) :
    Findings × List Draft → List Subplan → List (Subplan × List Registration)
  | _, [] => []
  | state, subplan :: rest =>
      match Draft.buildNext plan state subplan with
      | .ok after =>
          (subplan, Draft.registrationsFrom plan state.2 subplan (state.1, { id := subplan.id })
            (plan.stepsOf subplan)) :: plan.registrationsFrom after rest
      | .error _ => []

def registrations (plan : Plan) : List (Subplan × List Registration) :=
  plan.registrationsFrom ({}, []) plan.subplans

end Plan

/-! ## The effect of registrations -/

namespace Draft

variable {plan : Plan} {findings : Findings} {step : Step} {draft after : Draft}

/-- What registrations make of a draft: the parts that say which columns it has. -/
structure HasRegistered (draft : Draft) (registered : List Registration) (after : Draft) :
    Prop where
  id_eq : after.id = draft.id
  fields_eq : after.fields = registered.foldl
    (fun fields item => fields.putNew item.handle.columnName item.handle) draft.fields
  select_eq : after.select = (registered.filter (·.use = .returned)).foldl
    (fun select item => addNew item.handle.columnName select) draft.select

namespace HasRegistered

variable {middle : Draft} {first second : List Registration}

theorem none_of_eq (id : after.id = draft.id) (fields : after.fields = draft.fields)
    (select : after.select = draft.select) : HasRegistered draft [] after :=
  ⟨id, fields, select⟩

theorem append (earlier : HasRegistered draft first middle)
    (later : HasRegistered middle second after) : HasRegistered draft (first ++ second) after where
  id_eq := later.id_eq.trans earlier.id_eq
  fields_eq := by rw [later.fields_eq, earlier.fields_eq, List.foldl_append]
  select_eq := by rw [later.select_eq, earlier.select_eq, List.filter_append, List.foldl_append]

/-- Changes that register one handle each register all of them. -/
theorem foldl {α : Type} (change : Draft → α → Draft) (registration : α → Registration)
    (each : ∀ draft item, HasRegistered draft [registration item] (change draft item))
    (items : List α) (draft : Draft) :
    HasRegistered draft (items.map registration) (items.foldl change draft) := by
  induction items generalizing draft with
  | nil => exact none_of_eq rfl rfl rfl
  | cons item rest ih => exact (each draft item).append (ih (change draft item))

theorem returnField (draft : Draft) (handle : Handle) :
    HasRegistered draft [⟨.returned, handle⟩] (draft.returnField handle) :=
  ⟨rfl, rfl, rfl⟩

theorem groupByField (draft : Draft) (handle : Handle) :
    HasRegistered draft [⟨.grouped, handle⟩] (draft.groupByField handle) :=
  ⟨rfl, rfl, rfl⟩

theorem sortByField (draft : Draft) (key : Handle × Direction) :
    HasRegistered draft [⟨.sorted, key.1⟩] (draft.sortByField key) :=
  ⟨rfl, rfl, rfl⟩

end HasRegistered

theorem eq_handlesOf {references : List StepRef} {handles : List Handle}
    (read : references.mapM (findings.handle step) = .ok handles) :
    handles = handlesOf findings references := by
  rw [mapM_eq_ok_iff] at read
  induction read with
  | nil => rfl
  | @cons reference handle _ _ found _ ih =>
      unfold Findings.handle at found
      split at found
      · rename_i known isKnown
        cases found
        rw [ih, handlesOf, handlesOf, List.filterMap_cons, isKnown]
      · cases found

theorem Places.hasRegistered {predicate : Handle} (places : Places draft predicate after) :
    HasRegistered draft [] after := by
  cases places <;> exact .none_of_eq rfl rfl rfl

theorem hasRegistered_addClause {target : StepRef}
    (added : addClause plan findings step draft target = .ok after) :
    HasRegistered draft ((clauseKeys plan findings target).map (⟨.sorted, ·⟩)) after := by
  obtain ⟨clause, found, rfl, takes⟩ := exists_takesClause added
  unfold clauseKeys
  rw [found]
  dsimp only
  cases takes with
  | predicate category _ places =>
      rw [category]
      exact places.hasRegistered
  | sort category =>
      rw [if_pos category, List.map_map]
      exact .foldl Draft.sortByField _ HasRegistered.sortByField _ draft
  | limit category =>
      rw [category]
      exact .none_of_eq rfl rfl rfl

theorem hasRegistered_addClauses {clauses : List StepRef}
    (run : clauses.foldlM (addClause plan findings step) draft = .ok after) :
    HasRegistered draft ((clauses.flatMap (clauseKeys plan findings)).map (⟨.sorted, ·⟩))
      after := by
  induction clauses generalizing draft with
  | nil =>
      cases run
      exact .none_of_eq rfl rfl rfl
  | cons target rest ih =>
      rw [List.foldlM_cons, bind_eq_ok_iff] at run
      obtain ⟨middle, added, later⟩ := run
      rw [List.flatMap_cons, List.map_append]
      exact (hasRegistered_addClause added).append (ih later)

theorem hasRegistered_addReturn (returned : draft.addReturn plan findings step = .ok after) :
    HasRegistered draft ((collected plan findings step).map (⟨.returned, ·⟩) ++
      (step.references.tail.flatMap (clauseKeys plan findings)).map (⟨.sorted, ·⟩)) after := by
  obtain ⟨first, clauses, collect, handles, references, found, read, run⟩ :=
    exists_of_addReturn returned
  rw [collected, references, List.head?_cons, Option.bind_some, found]
  dsimp only
  rw [← eq_handlesOf read]
  have columns :=
    HasRegistered.foldl Draft.returnField _ HasRegistered.returnField handles draft
  exact columns.append (hasRegistered_addClauses run)

/-- A visit registers what its step makes columns of. -/
theorem Visits.hasRegistered {built : List Draft} {subplan : Subplan} {later : Findings}
    (visits : Visits plan built subplan findings draft step later after) :
    HasRegistered draft (registrations plan subplan findings step) after := by
  have nothing (category : step.operation.category ≠ .aggregation)
      (other : step.operation.category = .output → step.reference ≠ subplan.root) :
      registrations plan subplan findings step = [] := by
    unfold registrations
    split
    · exact absurd ‹_› category
    · rw [if_neg (other ‹_›)]
    · rfl
  cases visits with
  | entity operation =>
      have category : step.operation.category = .retrieval := by
        rw [operation]
        rfl
      rw [nothing (by simp [category]) (by simp [category])]
      exact .none_of_eq rfl rfl rfl
  | retrieval category read =>
      rw [nothing (by simp [category]) (by simp [category])]
      rcases eq_of_retrieve read with rfl | ⟨source, rfl⟩
      · exact .none_of_eq rfl rfl rfl
      · exact .none_of_eq rfl rfl rfl
  | operation category =>
      have other : step.operation.category ≠ .aggregation ∧ step.operation.category ≠ .output := by
        rcases category with category | category <;> simp [category]
      rw [nothing other.1 (fun output => absurd output other.2)]
      exact .none_of_eq rfl rfl rfl
  | analysis category | rowNumber category | sort category | limit category | collect category =>
      rw [nothing (by simp [category]) (by simp [category])]
      exact .none_of_eq rfl rfl rfl
  | inner category other =>
      rw [nothing (by simp [category]) (fun _ => other)]
      exact .none_of_eq rfl rfl rfl
  | groupBy category read =>
      rw [registrations, category, ← eq_handlesOf read]
      exact .foldl Draft.groupByField _ HasRegistered.groupByField _ draft
  | root category isRoot returned =>
      rw [registrations, category]
      dsimp only
      rw [if_pos isRoot]
      exact hasRegistered_addReturn returned

/-- The visits to the steps of a subplan register what they make columns of. -/
theorem hasRegistered_run {built : List Draft} {subplan : Subplan} {references : List StepRef}
    {state final : Findings × Draft}
    (run : references.foldlM (visitRef plan built subplan) state = .ok final) :
    HasRegistered state.2 (registrationsFrom plan built subplan state references) final.2 := by
  induction references generalizing state with
  | nil =>
      cases run
      exact .none_of_eq rfl rfl rfl
  | cons reference rest ih =>
      rw [List.foldlM_cons, bind_eq_ok_iff] at run
      obtain ⟨middle, visited, later⟩ := run
      obtain ⟨step, found, visits⟩ := exists_visits_of_visitRef visited
      rw [registrationsFrom, found, visited]
      exact visits.hasRegistered.append (ih later)

end Draft

/-! ## Look-up by name -/

def NamesTell (registered : List Registration) : Prop :=
  ∀ first ∈ registered, ∀ second ∈ registered,
    first.handle.columnName = second.handle.columnName → first.handle = second.handle

structure IsRegistered (registered : List Registration) (draft : Draft) : Prop where
  /-- Under each name stands the first handle of that name. -/
  get?_fields : ∀ name, draft.fields.get? name =
    (registered.map (·.handle)).find? fun handle => handle.columnName = name
  /-- All handles stand under their names exactly when names tell them apart. -/
  kept_iff : (∀ item ∈ registered,
      draft.fields.get? item.handle.columnName = some item.handle) ↔ NamesTell registered
  /-- The returned columns are the names of the handles that are returned, each once. -/
  mem_select_iff : ∀ name, name ∈ draft.select ↔
    ∃ item ∈ registered, item.use = .returned ∧ item.handle.columnName = name
  distinct : draft.select.Nodup

theorem get?_foldl_putNew (registered : List Registration) (fields : Entries String Handle)
    (name : String) :
    (registered.foldl (fun fields item => fields.putNew item.handle.columnName item.handle)
        fields).get? name =
      (fields.get? name).or
        ((registered.map (·.handle)).find? fun handle => handle.columnName = name) := by
  induction registered generalizing fields with
  | nil => simp
  | cons item rest ih =>
      rw [List.foldl_cons, ih, Entries.get?_putNew, List.map_cons, List.find?_cons, Option.or_assoc]
      split
      · rename_i same
        simp [same]
      · rename_i other
        simp [other]

/-- The first handle of its own name is each handle of a list in which names tell handles apart. -/
theorem find?_columnName_iff (registered : List Registration) :
    (∀ item ∈ registered, ((registered.map (·.handle)).find? fun handle =>
      handle.columnName = item.handle.columnName) = some item.handle) ↔ NamesTell registered := by
  constructor
  · intro kept first firstMember second secondMember same
    have found := kept first firstMember
    rw [same, kept second secondMember] at found
    exact (Option.some.inj found).symm
  · intro tell item member
    cases found : (registered.map (·.handle)).find? fun handle =>
        handle.columnName = item.handle.columnName with
    | none =>
        have lacks := List.find?_eq_none.mp found item.handle (List.mem_map_of_mem member)
        simp at lacks
    | some handle =>
        have same : handle.columnName = item.handle.columnName := by
          simpa using List.find?_some found
        obtain ⟨other, otherMember, rfl⟩ := List.mem_map.mp (List.mem_of_find?_eq_some found)
        rw [tell other otherMember item member same]

theorem mem_foldl_addNew (registered : List Registration) (select : List String) (name : String) :
    name ∈ registered.foldl (fun select item => addNew item.handle.columnName select) select ↔
      name ∈ select ∨ ∃ item ∈ registered, item.handle.columnName = name := by
  induction registered generalizing select with
  | nil => simp
  | cons item rest ih =>
      rw [List.foldl_cons, ih, mem_addNew]
      simp [or_assoc, eq_comm]

theorem nodup_foldl_addNew (registered : List Registration) {select : List String}
    (distinct : select.Nodup) :
    (registered.foldl (fun select item => addNew item.handle.columnName select) select).Nodup := by
  induction registered generalizing select with
  | nil => exact distinct
  | cons item rest ih => exact ih (nodup_addNew distinct)

theorem Draft.HasRegistered.isRegistered {id : SubplanId} {registered : List Registration}
    {draft : Draft} (whole : HasRegistered { id } registered draft) :
    IsRegistered registered draft := by
  have lookUp (name : String) : draft.fields.get? name =
      (registered.map (·.handle)).find? fun handle => handle.columnName = name := by
    rw [whole.fields_eq, get?_foldl_putNew]
    rfl
  constructor
  · exact lookUp
  · simp only [lookUp]
    exact find?_columnName_iff registered
  · intro name
    rw [whole.select_eq, mem_foldl_addNew]
    simp [and_assoc]
  · rw [whole.select_eq]
    exact nodup_foldl_addNew _ List.nodup_nil

/-! ## Whole plans -/

theorem forall₂_registrationsFrom {plan : Plan} {subplans : List Subplan}
    {state final : Findings × List Draft}
    (run : subplans.foldlM (Draft.buildNext plan) state = .ok final) :
    ∃ drafts, final.2 = state.2 ++ drafts ∧
      List.Forall₂ (fun entry draft => draft.id = entry.1.id ∧ IsRegistered entry.2 draft)
        (plan.registrationsFrom state subplans) drafts := by
  induction subplans generalizing state with
  | nil =>
      cases run
      exact ⟨[], by simp, .nil⟩
  | cons subplan rest ih =>
      rw [List.foldlM_cons, bind_eq_ok_iff] at run
      obtain ⟨middle, added, later⟩ := run
      obtain ⟨drafts, whole, others⟩ := ih later
      rw [Plan.registrationsFrom, added]
      obtain ⟨⟨findings, draft⟩, visited, same⟩ := bind_eq_ok_iff.mp added
      cases same
      have registered := Draft.hasRegistered_run visited
      refine ⟨draft :: drafts, by simp [whole], .cons ⟨registered.id_eq, ?_⟩ others⟩
      exact registered.isRegistered

theorem map_fst_registrationsFrom {plan : Plan} {subplans : List Subplan}
    {state final : Findings × List Draft}
    (run : subplans.foldlM (Draft.buildNext plan) state = .ok final) :
    (plan.registrationsFrom state subplans).map (·.1) = subplans := by
  induction subplans generalizing state with
  | nil => rfl
  | cons subplan rest ih =>
      rw [List.foldlM_cons, bind_eq_ok_iff] at run
      obtain ⟨middle, added, later⟩ := run
      rw [Plan.registrationsFrom, added, List.map_cons, ih later]

end SemanticQuery
