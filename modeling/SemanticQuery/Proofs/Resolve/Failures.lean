import SemanticQuery.Proofs.Draft.Drawn
import SemanticQuery.Proofs.Operation.Arity
import SemanticQuery.Proofs.Plan.Arranged
import SemanticQuery.Proofs.Resolve.Validation
import SemanticQuery.Proofs.Ring.Complete

/-!
# The failures of resolution

Drafts are resolved in order, so the columns and queries of earlier drafts are there when a draft
reads them.  Over an accepted ring all other look-ups find what they ask for, once the entities and
attributes of the plan are known.  The only invariant that resolution can find broken is the number of
operands of an analysis.
-/

namespace SemanticQuery

open Sql

inductive Plan.ResolveFailure (plan : Plan) : Error → Prop where
  | unknownEntity (name : String) : ResolveFailure plan (.unknownEntity name)
  | unknownAttribute (entity name : String) : ResolveFailure plan (.unknownAttribute entity name)
  | noJoinPath (first second : String) : ResolveFailure plan (.noJoinPath first second)
  | semanticTypeMismatch (step : Option String) (operation operand expected found : String) :
      ResolveFailure plan (.semanticTypeMismatch step operation operand expected found)
  | strandedJoin (subplan join : String) (joined : List String) :
      ResolveFailure plan (.strandedJoin subplan join joined)
  | noSource (subplan : String) : ResolveFailure plan (.noSource subplan)
  /-- An analysis step with another number of operands than the analysis is about. -/
  | wrongCount {step : Step} (member : step ∈ plan.steps)
      (analysis : step.operation.category = .analysis) {operands : List Expr}
      (count : operands.length = plan.operandCount step)
      (misfit : operands.length ≠ step.operation.analysedCount) :
      ResolveFailure plan (step.operation.wrongCount operands step.operation.analysedCount)

variable {plan : Plan} {scope : Scope} {error : Error}

/-! ## Attributes and types -/

namespace Scope

theorem failure_of_entity {ring : Ring} (entityName : String) :
    FailsOnly plan.ResolveFailure (ring.entity entityName) := by
  intro error failed
  rw [Ring.eq_unknownEntity failed]
  exact .unknownEntity _

theorem failure_of_attributeOf {ring : Ring} (entityName name : String) :
    FailsOnly plan.ResolveFailure (ring.attributeOf entityName name) := by
  intro error failed
  rcases Ring.attributeOf_error_cases failed with rfl | rfl
  · exact .unknownEntity _
  · exact .unknownAttribute _ _

theorem failure_of_attributeJoins {ring : Ring} (entityName name : String) :
    FailsOnly plan.ResolveFailure (ring.attributeJoins entityName name) := by
  intro error failed
  rcases Ring.attributeJoins_error_cases failed with rfl | ⟨_, rfl⟩
  · exact .unknownEntity _
  · exact .unknownAttribute _ _

/-- A field of a complete ring is missing only if its entity or its attribute is unknown. -/
theorem failure_of_field (complete : scope.ring.IsComplete) (entityName name : String) :
    FailsOnly plan.ResolveFailure (scope.field entityName name) := by
  refine FailsOnly.bind (failure_of_entity entityName) fun entity known => ?_
  rw [Ring.entity_eq_ok_iff] at known
  have isComplete := complete.entities entity (List.mem_of_find?_eq_some known)
  dsimp only
  split
  · split
    · exact FailsOnly.ok _
    · rename_i none
      exact absurd (List.head?_eq_none_iff.mp none) isComplete.identifiers
  · refine FailsOnly.bind (failure_of_attributeOf entityName _) fun a isAttribute => ?_
    have isComplete := isComplete.attributes a
      (List.mem_of_find?_eq_some (Ring.attributeOf_eq_ok known isAttribute))
    refine FailsOnly.bind (failure_of_attributeJoins entityName _) fun joins _ => ?_
    split
    · rename_i none
      exact absurd (List.head?_eq_none_iff.mp none) isComplete.columns
    · rw [Ring.physicalColumn_eq isComplete.table]
      exact FailsOnly.ok _

theorem failure_of_checkTypes (operation : Operation) (operands : List Operand) :
    FailsOnly plan.ResolveFailure (scope.checkTypes operation operands) := by
  intro error failed
  rcases failsOnly_checkTypes error failed with ⟨_, _, _, rfl⟩ | ⟨entityName, name, -, unknown⟩
  · exact .semanticTypeMismatch _ _ _ _ _
  · rcases declaredTypes_error_cases unknown with rfl | ⟨_, rfl⟩
    · exact .unknownEntity _
    · exact .unknownAttribute _ _

end Scope

/-! ## Operands -/

namespace Operand

/-- Operands without directions resolve to one expression each. -/
theorem length_resolveAll {operands : List Operand} {results : List Resolved}
    (noDirection : ∀ direction, .direction direction ∉ operands)
    (found : Operand.resolveAll scope operands = .ok results) :
    results.length = operands.length := by
  induction operands generalizing results with
  | nil =>
      rw [Operand.resolveAll] at found
      cases found
      rfl
  | cons operand rest ih =>
      have others (direction : Direction) : .direction direction ∉ rest :=
        fun member => noDirection direction (List.mem_cons_of_mem _ member)
      cases operand with
      | handle first =>
          rw [Operand.resolveAll] at found
          obtain ⟨_, -, found⟩ := bind_eq_ok_iff.mp found
          obtain ⟨_, othersOk, same⟩ := bind_eq_ok_iff.mp found
          cases same
          rw [List.length_cons, List.length_cons, ih others othersOk]
      | literal value =>
          rw [Operand.resolveAll] at found
          obtain ⟨_, othersOk, same⟩ := bind_eq_ok_iff.mp found
          cases same
          rw [List.length_cons, List.length_cons, ih others othersOk]
      | direction value => exact absurd List.mem_cons_self (noDirection value)

/-- The terms of keys with their directions fail only as one of the keys does. -/
theorem failsOnly_resolveTerms_keys {property : Error → Prop} {pairs : List (Handle × Direction)}
    (each : ∀ pair ∈ pairs, FailsOnly property (pair.1.resolve scope)) :
    FailsOnly property (Operand.resolveTerms scope (Operand.keys pairs)) := by
  induction pairs with
  | nil =>
      rw [Operand.keys, List.flatMap_nil, Operand.resolveTerms]
      exact FailsOnly.ok _
  | cons pair rest ih =>
      have others := ih fun later member => each later (List.mem_cons_of_mem _ member)
      rw [Operand.keys, List.flatMap_cons, List.cons_append, List.cons_append, List.nil_append,
        Operand.resolveTerms]
      refine FailsOnly.bind (each pair List.mem_cons_self) fun _ _ => ?_
      exact FailsOnly.bind others fun _ _ => FailsOnly.ok _

end Operand

/-! ## Handles -/

/-- What the handles that are drawn from drafts are resolved in: a complete ring and the columns that
these drafts return. -/
structure Scope.IsReady (scope : Scope) (built : List Draft) : Prop where
  complete : scope.ring.IsComplete
  exposed : ∀ draft ∈ built, scope.exposed.get? draft.id = some draft.select

namespace Handle.IsDrawn

variable {built : List Draft} {handle : Handle}

/-- The operation of a step compiles, unless it is an analysis with a wrong number of operands. -/
theorem failure_of_apply (arranged : plan.IsArranged) {step : Step} (member : step ∈ plan.steps)
    (isApplied : Step.isApplied step.operation = true) {results : List Resolved}
    (count : results.length = plan.operandCount step) :
    FailsOnly plan.ResolveFailure (scope.apply step.operation results) := by
  refine FailsOnly.bind ?_ fun _ _ => ?_
  · by_cases analysis : step.operation.category = .analysis
    · have demands : step.operation.Demands (results.map (·.expr)) step.operation.analysedCount
          (step.operation.compile scope.dialect (results.map (·.expr))) :=
        Operation.demands_of_analysis analysis
      rcases demands with ⟨-, result, compiled⟩ | ⟨misfit, refused⟩
      · rw [compiled]
        exact FailsOnly.ok _
      · rw [refused, FailsOnly.error_iff]
        exact .wrongCount member analysis (by rw [List.length_map, count]) misfit
    · have category : step.operation.category = .predicate ∨
          step.operation.category = .arithmetic := by
        revert isApplied analysis
        unfold Step.isApplied
        cases step.operation.category <;> decide
      obtain ⟨least, most⟩ := arranged.bounds step member
      have whole : results.length = step.arguments.length := by
        rw [count, Plan.operandCount, if_neg (by simp [Operation.isAnalysis, analysis])]
      obtain ⟨result, compiled⟩ : ∃ result,
          step.operation.compile scope.dialect (results.map (·.expr)) = .ok result := by
        refine Operation.exists_compile_of_bounds category ?_ ?_ <;> rwa [List.length_map, whole]
      rw [compiled]
      exact FailsOnly.ok _
  · dsimp only
    split <;> exact FailsOnly.ok _

/-- A handle that is drawn from a plan fails to resolve only as resolution can. -/
theorem failure_of_resolve (arranged : plan.IsArranged) (ready : scope.IsReady built)
    (drawn : handle.IsDrawn plan built) : FailsOnly plan.ResolveFailure (handle.resolve scope) := by
  induction drawn with
  | field entity name =>
      rw [Handle.resolve]
      exact Scope.failure_of_field ready.complete entity name
  | @column draft member name exposed origin =>
      rw [Handle.resolve, Scope.column, ready.exposed draft member, Option.any_some,
        if_pos (List.contains_iff_mem.mpr exposed)]
      exact FailsOnly.ok _
  | @applied step member isApplied operands count noDirection _ ih =>
      rw [Handle.resolve, if_neg]
      · refine FailsOnly.bind (Scope.failure_of_checkTypes _ _) fun _ _ => ?_
        refine FailsOnly.bind (Operand.failsOnly_resolveAll ih) fun results found => ?_
        have same := Operand.length_resolveAll noDirection found
        exact failure_of_apply arranged member isApplied (same.trans count)
      · intro rowNumber
        rw [rowNumber] at isApplied
        cases isApplied
  | rowNumber _ ih =>
      rw [Handle.resolve, if_pos rfl]
      exact FailsOnly.bind (Operand.failsOnly_resolveTerms_keys ih) fun _ _ => FailsOnly.ok _

end Handle.IsDrawn

/-! ## Joins -/

/-- The joins that a handle needs are declared. -/
theorem Handle.isDeclared_of_resolve (complete : scope.ring.IsComplete) {handle : Handle}
    {resolved : Resolved} (found : handle.resolve scope = .ok resolved) :
    ∀ name ∈ resolved.joins, Join.IsDeclared scope.ring.joins name := by
  intro name needed
  obtain ⟨entityName, field, -, joins, isJoins, listed⟩ := (mem_joins_resolve found).mp needed
  unfold Ring.fieldJoins at isJoins
  obtain ⟨entity, -, isJoins⟩ := bind_eq_ok_iff.mp isJoins
  dsimp only at isJoins
  split at isJoins
  · cases isJoins
    cases listed
  · exact complete.isDeclared_of_attributeJoins isJoins name listed

/-- Named joins that are declared can be attached, unless one of them is out of reach. -/
theorem Ring.failure_of_attach {ring : Ring} {subplan : SubplanId} {names tables : NameSet}
    (declared : ∀ name ∈ names, Join.IsDeclared ring.joins name) :
    FailsOnly plan.ResolveFailure (ring.attach subplan names tables).1 := by
  unfold Ring.attach
  split
  · rename_i missing
    obtain ⟨name, member, unknown⟩ := exists_of_mapM_eq_error missing
    obtain ⟨join, found⟩ := exists_join_of_isDeclared (declared name member)
    rw [found] at unknown
    cases unknown
  · split
    · exact FailsOnly.ok _
    · exact FailsOnly.error_iff.mpr (.strandedJoin _ _ _)

/-! ## Queries -/

namespace Compilation

variable {compilation : Compilation} {draft : Draft} {built : List Draft}

/-- The queries of earlier drafts are there, over a complete ring. -/
structure IsReady (compilation : Compilation) (built : List Draft) : Prop where
  complete : compilation.ring.IsComplete
  exposed : ∀ draft ∈ built, compilation.exposed.get? draft.id = some draft.select
  queries : ∀ draft ∈ built, (compilation.queries.get? draft.id).isSome = true

theorem IsReady.exists_derived (ready : compilation.IsReady built) {id : SubplanId}
    (known : id ∈ built.map (·.id)) : ∃ table, compilation.derived id = .ok table := by
  obtain ⟨draft, member, rfl⟩ := List.mem_map.mp known
  obtain ⟨query, isQuery⟩ := Option.isSome_iff_exists.mp (ready.queries draft member)
  exact ⟨_, by rw [derived, isQuery]⟩

/-- Where a draft starts is there, if it has a source at all; so are the subplans that it reads
besides. -/
theorem IsReady.failure_of_origin (ready : compilation.IsReady built)
    (drawn : draft.IsDrawn plan built) :
    FailsOnly plan.ResolveFailure (compilation.origin draft) := by
  unfold origin
  split
  · exact FailsOnly.bind (Scope.failure_of_entity _) fun _ _ => FailsOnly.ok _
  · rename_i id subplans _ sources
    have listed : id ∈ draft.subplanSources := by
      rw [sources]
      exact List.mem_cons_self
    obtain ⟨table, found⟩ :=
      ready.exists_derived (drawn.sources id (Draft.mem_subplanSources.mp listed))
    rw [found]
    exact FailsOnly.ok _
  · exact FailsOnly.error_iff.mpr (.noSource _)

theorem subset_of_origin {source : TableRef Select} {subplans : List SubplanId}
    (found : compilation.origin draft = .ok (source, subplans)) :
    subplans ⊆ draft.subplanSources := by
  unfold origin at found
  split at found
  · obtain ⟨_, -, same⟩ := bind_eq_ok_iff.mp found
    cases same
    exact List.Subset.refl _
  · rename_i sources
    obtain ⟨_, -, same⟩ := bind_eq_ok_iff.mp found
    cases same
    rw [sources]
    exact List.subset_cons_self _ _
  · cases found

theorem IsReady.failure_of_crossJoin (ready : compilation.IsReady built) {id : SubplanId}
    (known : id ∈ built.map (·.id)) : FailsOnly plan.ResolveFailure (compilation.crossJoin id) := by
  obtain ⟨table, found⟩ := ready.exists_derived known
  unfold crossJoin
  rw [found]
  exact FailsOnly.ok _

theorem failure_of_columnExpr {columns : Entries String Expr} {name : String}
    (known : name ∈ columns.map (·.1)) :
    FailsOnly plan.ResolveFailure (columnExpr draft columns name) := by
  unfold columnExpr
  split
  · exact FailsOnly.ok _
  · rename_i missing
    have isSome := Entries.isSome_get?_iff.mpr known
    rw [missing] at isSome
    cases isSome

theorem failure_of_resolveOption (arranged : plan.IsArranged) (ready : scope.IsReady built)
    {handle : Option Handle} (drawn : ∀ predicate ∈ handle, predicate.IsDrawn plan built) :
    FailsOnly plan.ResolveFailure (resolveOption scope handle) := by
  cases handle with
  | none => exact FailsOnly.ok _
  | some predicate =>
      refine FailsOnly.bind ?_ fun _ _ => FailsOnly.ok _
      exact Handle.IsDrawn.failure_of_resolve arranged ready (drawn predicate rfl)

theorem failure_of_joinsAmong (ring : Ring) (entities : List String) :
    FailsOnly plan.ResolveFailure (joinsAmong ring entities) := by
  refine FailsOnly.bind (FailsOnly.mapM fun pair _ error failed => ?_) fun _ _ => FailsOnly.ok _
  rcases Ring.joinsBetween_error_cases failed with ⟨name, rfl⟩ | rfl
  · exact .unknownEntity _
  · exact .noJoinPath _ _

/-- Resolving the fields of a draft keeps their names. -/
theorem map_fst_of_fields {entries : Entries String Handle} {fields : List (String × Resolved)}
    (found : (entries.mapM fun field => do
      let resolved ← field.2.resolve scope
      pure (field.1, resolved)) = .ok fields) : fields.map (·.1) = entries.map (·.1) := by
  refine map_eq_map_of_forall₂ ?_ (mapM_eq_ok_iff.mp found)
  intro entry field fieldOk
  obtain ⟨_, -, same⟩ := bind_eq_ok_iff.mp fieldOk
  cases same
  rfl

/-- The joins that a draft needs are declared. -/
theorem isDeclared_of_needed (complete : compilation.ring.IsComplete)
    {fields : List (String × Resolved)} {filter having : Option Resolved} {between : List String}
    (fieldsOk : (draft.fields.mapM fun field => do
      let resolved ← field.2.resolve (compilation.scope draft)
      pure (field.1, resolved)) = .ok fields)
    (filterOk : resolveOption (compilation.scope draft) draft.filter = .ok filter)
    (havingOk : resolveOption (compilation.scope draft) draft.having = .ok having)
    (betweenOk : joinsAmong compilation.ring draft.entitySources = .ok between) :
    ∀ name ∈ NameSet.ofList (fields.flatMap (·.2.joins) ++
      (filter.toList ++ having.toList).flatMap (·.joins) ++ between),
      Join.IsDeclared compilation.ring.joins name := by
  have declared {handle : Handle} {resolved : Resolved}
      (found : handle.resolve (compilation.scope draft) = .ok resolved) :
      ∀ name ∈ resolved.joins, Join.IsDeclared compilation.ring.joins name :=
    Handle.isDeclared_of_resolve complete found
  have ofOption {handle : Option Handle} {found : Option Resolved}
      (isFound : resolveOption (compilation.scope draft) handle = .ok found) {resolved : Resolved}
      (member : resolved ∈ found.toList) :
      ∀ name ∈ resolved.joins, Join.IsDeclared compilation.ring.joins name := by
    obtain ⟨inner, -, innerOk⟩ := exists_of_mem_mapM (mapM_toList_of_resolveOption isFound) member
    exact declared innerOk
  intro name needed
  rw [NameSet.mem_ofList, List.mem_append, List.mem_append] at needed
  rcases needed with (inFields | inPredicates) | inBetween
  · obtain ⟨field, member, listed⟩ := List.mem_flatMap.mp inFields
    obtain ⟨_, -, fieldOk⟩ := exists_of_mem_mapM fieldsOk member
    obtain ⟨_, found, same⟩ := bind_eq_ok_iff.mp fieldOk
    cases same
    exact declared found name listed
  · obtain ⟨resolved, member, listed⟩ := List.mem_flatMap.mp inPredicates
    rcases List.mem_append.mp member with inFilter | inHaving
    · exact ofOption filterOk inFilter name listed
    · exact ofOption havingOk inHaving name listed
  · obtain ⟨_, _, names, -, found, listed⟩ := (mem_joinsAmong betweenOk).mp inBetween
    exact complete.isDeclared_of_joinsBetween found name listed

/-- The query of a draft that is drawn from earlier ones fails only as resolution can. -/
theorem IsReady.failure_of_query (arranged : plan.IsArranged) (ready : compilation.IsReady built)
    (drawn : draft.IsDrawn plan built) :
    FailsOnly plan.ResolveFailure (compilation.query draft) := by
  have scopeReady : (compilation.scope draft).IsReady built := ⟨ready.complete, ready.exposed⟩
  unfold query
  split
  · exact FailsOnly.error_iff.mpr (.unknownEntity _)
  refine FailsOnly.bind (FailsOnly.mapM fun field member => ?_) fun fields fieldsOk => ?_
  · refine FailsOnly.bind ?_ fun _ _ => FailsOnly.ok _
    refine Handle.IsDrawn.failure_of_resolve arranged scopeReady (drawn.handles _ ?_)
    exact Draft.mem_handles.mpr (.inl (List.mem_map_of_mem member))
  refine FailsOnly.bind (failure_of_resolveOption arranged scopeReady ?_) fun filter filterOk => ?_
  · exact fun predicate isFilter => drawn.handles _ (Draft.mem_handles.mpr (.inr (.inl isFilter)))
  refine FailsOnly.bind (failure_of_resolveOption arranged scopeReady ?_) fun having havingOk => ?_
  · exact fun predicate isHaving => drawn.handles _ (Draft.mem_handles.mpr (.inr (.inr isHaving)))
  refine FailsOnly.bind (failure_of_joinsAmong _ _) fun between betweenOk => ?_
  refine FailsOnly.bind (ready.failure_of_origin drawn) fun source originOk => ?_
  refine FailsOnly.bind (Ring.failure_of_attach
    (isDeclared_of_needed ready.complete fieldsOk filterOk havingOk betweenOk)) fun attached _ => ?_
  refine FailsOnly.bind (FailsOnly.mapM fun id member => ?_) fun crossed _ => ?_
  · refine ready.failure_of_crossJoin (drawn.sources id (Draft.mem_subplanSources.mp ?_))
    exact subset_of_origin originOk member
  -- Whatever is returned, grouped or sorted by is one of the fields that were resolved.
  have columns {name : String} (used : name ∈ draft.usedColumns) :
      FailsOnly plan.ResolveFailure
        (columnExpr draft (fields.map fun field => (field.1, field.2.expr)) name) := by
    refine failure_of_columnExpr ?_
    rw [List.map_map]
    exact map_fst_of_fields fieldsOk ▸ drawn.columns name used
  refine FailsOnly.bind (FailsOnly.mapM fun name member => ?_) fun _ _ => ?_
  · exact FailsOnly.bind (columns (by simp [Draft.usedColumns, member])) fun _ _ => FailsOnly.ok _
  refine FailsOnly.bind (FailsOnly.mapM fun name member => ?_) fun _ _ => ?_
  · exact columns (by simp [Draft.usedColumns, member])
  refine FailsOnly.bind (FailsOnly.mapM fun key member => ?_) fun _ _ => FailsOnly.ok _
  have used : key.column ∈ draft.usedColumns := by
    simp only [Draft.usedColumns, List.mem_append]
    exact .inr (List.mem_map_of_mem member)
  exact FailsOnly.bind (columns used) fun _ _ => FailsOnly.ok _

/-! ## Runs -/

/-- Compiling a draft leaves the queries that are there and adds its own. -/
theorem isReady_add {before : List Draft} {state after : Compilation × List Draft}
    (ready : state.1.IsReady before) (fresh : draft.id ∉ before.map (·.id))
    (added : add state draft = .ok after) : after.1.IsReady (before ++ [draft]) := by
  obtain ⟨⟨query, resolved⟩, -, same⟩ := bind_eq_ok_iff.mp added
  cases same
  refine ⟨ready.complete, ?_, ?_⟩
  · intro other member
    rw [Entries.get?_put]
    rcases List.mem_append.mp member with earlier | last
    · have differ : draft.id ≠ other.id := fun same => fresh (same ▸ List.mem_map_of_mem earlier)
      rw [if_neg differ]
      exact ready.exposed other earlier
    · rw [List.mem_singleton.mp last, if_pos rfl]
  · intro other member
    rw [Entries.isSome_get?_put]
    rcases List.mem_append.mp member with earlier | last
    · exact .inr (ready.queries other earlier)
    · exact .inl (congrArg Draft.id (List.mem_singleton.mp last)).symm

end Compilation

/-- Resolving the drafts of an arranged plan over a complete ring fails only as resolution can. -/
theorem Plan.IsArranged.failure_of_resolveDrafts (arranged : plan.IsArranged) {drafts : List Draft}
    (drafted : plan.drafts = .ok drafts) {ring : Ring} (complete : ring.IsComplete)
    {settings : Settings} (failed : resolveDrafts ring settings drafts = .error error) :
    plan.ResolveFailure error := by
  obtain ⟨ids, -⟩ := arranged.divided.isSourced_of_drafts drafted
  have drawn := plan.areDrawn_of_drafts drafted
  have distinct : (drafts.map (·.id)).Nodup := by
    rw [ids, List.nodup_iff_pairwise_ne, List.pairwise_map]
    refine arranged.divided.increasing.imp ?_
    intro first second less same
    rw [same] at less
    exact Nat.lt_irrefl _ less
  have keeps (before : List Draft) (draft : Draft) (later : List Draft)
      (state after : Compilation × List Draft) (whole : drafts = before ++ draft :: later)
      (ready : state.1.IsReady before) (added : Compilation.add state draft = .ok after) :
      after.1.IsReady (before ++ [draft]) := by
    exact Compilation.isReady_add ready (Compilation.not_mem_of_nodup distinct whole) added
  have start : (Compilation.mk ring settings [] []).IsReady [] := ⟨complete, nofun, nofun⟩
  rcases bind_eq_error_iff.mp failed with failed | ⟨⟨compilation, resolved⟩, run, failed⟩
  · obtain ⟨before, draft, later, state, whole, ready, failed⟩ := exists_of_foldlM_eq_error
      (fun before (state : Compilation × List Draft) => state.1.IsReady before) keeps start failed
    rcases bind_eq_error_iff.mp failed with unresolved | ⟨_, -, impossible⟩
    · exact ready.failure_of_query arranged (drawn before draft later whole) error unresolved
    · cases impossible
  · have ready : compilation.IsReady drafts := foldlM_keeps_prefix
      (fun before (state : Compilation × List Draft) => state.1.IsReady before) keeps start run
    -- A plan has a subplan, so there is a query.
    obtain ⟨front, final, subplans, -⟩ := arranged.decomposed.last
    have final : ∃ draft, draft ∈ drafts := by
      have some : final.id ∈ drafts.map (·.id) := by simp [ids, subplans]
      obtain ⟨draft, member, -⟩ := List.mem_map.mp some
      exact ⟨draft, member⟩
    obtain ⟨draft, member⟩ := final
    have isQuery := Entries.isSome_get?_iff.mp (ready.queries draft member)
    dsimp only at failed
    split at failed
    · cases failed
    · rename_i none
      rw [List.getLast?_eq_none_iff.mp none] at isQuery
      cases isQuery

/-- Over an accepted ring, resolving the drafts of a plan never misses a join, a table or a column that
another subplan returns, and the only broken invariant that it can report is that an analysis has
another number of operands than it is about. -/
theorem resolveDrafts_failures {document : Document} {ring : Ring}
    (loads : Ring.ofDocument document = .ok ring) {raw : Entries String String}
    (parsed : Plan.parse raw = .ok plan) {drafts : List Draft} (drafted : plan.drafts = .ok drafts)
    (settings : Settings) (failed : resolveDrafts ring settings drafts = .error error) :
    error.code ∉ ["RING_003", "RING_004", "RESOLUTION_007"] ∧
      (error.kind = .internal → ∃ (operation : Operation) (operands : List Expr),
        operation.category = .analysis ∧ operands.length ≠ operation.analysedCount ∧
          error = operation.wrongCount operands operation.analysedCount) := by
  have arranged := Plan.isArranged_of_parse parsed
  have complete := Ring.isComplete_of_ofDocument loads
  cases arranged.failure_of_resolveDrafts drafted complete failed with
  | unknownEntity | unknownAttribute | noJoinPath | semanticTypeMismatch | strandedJoin
  | noSource => exact ⟨by simp [Error.code, Error.classification], nofun⟩
  | @wrongCount step _ analysis operands _ misfit =>
      refine ⟨?_, fun _ => ⟨step.operation, operands, analysis, misfit, rfl⟩⟩
      simp [Operation.wrongCount, Error.invariant, Error.code, Error.classification]

/-- The average of two operands: the second argument stands where a grouping may. -/
def averageOfTwo : Entries String String :=
  [("|1|", "(retrieve_entity Employee)"), ("|2|", "(retrieve_attribute |1| salary)"),
    ("|3|", "(average |2| 5)"), ("|4|", "(collect |3|)"), ("|5|", "(return |4|)")]

/-- The one broken invariant is reported for some plans that have drafts. -/
theorem resolveDrafts_failures_averageOfTwo :
    ∃ ring plan drafts error, Ring.ofDocument (staffDocument "employee_badge") = .ok ring ∧
      Plan.parse averageOfTwo = .ok plan ∧ plan.drafts = .ok drafts ∧
      resolveDrafts ring {} drafts = .error error ∧ error.kind = .internal ∧
      error.code ∉ ["RING_003", "RING_004", "RESOLUTION_007"] ∧
      ∃ (operation : Operation) (operands : List Expr), operation.category = .analysis ∧
        operands.length ≠ operation.analysedCount ∧
          error = operation.wrongCount operands operation.analysedCount := by
  have runs : (do
      let ring ← Ring.ofDocument (staffDocument "employee_badge")
      let drafts ← Plan.parse averageOfTwo >>= Plan.drafts
      match resolveDrafts ring {} drafts with
      | .error error => pure error.kind
      | .ok _ => pure .resolution) = Except.ok FailureKind.internal := by
    decide +kernel
  obtain ⟨ring, loads, runs⟩ := bind_eq_ok_iff.mp runs
  obtain ⟨drafts, drafted, runs⟩ := bind_eq_ok_iff.mp runs
  obtain ⟨plan, parsed, drafted⟩ := bind_eq_ok_iff.mp drafted
  split at runs
  · rename_i error failed
    obtain ⟨known, broken⟩ := resolveDrafts_failures loads parsed drafted {} failed
    have internal : error.kind = .internal := Except.ok.inj runs
    exact ⟨ring, plan, drafts, error, loads, parsed, drafted, failed, internal, known, broken internal⟩
  · cases runs

end SemanticQuery
