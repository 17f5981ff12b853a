import SemanticQuery.Proofs.Handle.Analysis
import SemanticQuery.Proofs.Plan.Arranged
import SemanticQuery.Proofs.Renaming.Draft
import SemanticQuery.Proofs.Resolve.Scoping
import SemanticQuery.Result

/-!
# Renaming the steps of compiled plans

The origins of expressions are read only where resolution fails.  So the names of the steps do not
matter for what a plan is compiled to.
-/

namespace SemanticQuery

open Sql

/-! ## Handles -/

section Origins

variable (scope : Scope) (origins : Entries Handle StepRef)

theorem Scope.toOption_checkOperand (operation : Operation) (step other : Option StepRef)
    (operand : Operand) (allowed : List SemanticType) :
    (scope.checkOperand operation step operand allowed).toOption =
      (scope.checkOperand operation other operand allowed).toOption := by
  unfold checkOperand
  split
  · split
    · rfl
    · simp only [toOption_bind]
      refine Option.bind_congr fun declared _ => ?_
      split
      · rfl
      · split <;> rfl
  · rfl

theorem Scope.toOption_checkTypes_origins (operation : Operation) (operands : List Operand) :
    (checkTypes { scope with origins := origins } operation operands).toOption =
      (scope.checkTypes operation operands).toOption := by
  unfold checkTypes
  split
  · exact toOption_forM_congr fun item _ => scope.toOption_checkOperand operation _ _ item.1 _
  · rfl

theorem Operand.toOption_resolveAll_origins {operands : List Operand}
    (each : ∀ inner : Handle, .handle inner ∈ operands →
      (inner.resolve { scope with origins := origins }).toOption = (inner.resolve scope).toOption) :
    (resolveAll { scope with origins := origins } operands).toOption =
      (resolveAll scope operands).toOption := by
  induction operands with
  | nil => rw [resolveAll, resolveAll]
  | cons operand rest ih =>
      have others := ih fun inner member => each inner (List.mem_cons_of_mem _ member)
      cases operand with
      | handle first =>
          rw [resolveAll, resolveAll]
          simp only [toOption_bind, each first List.mem_cons_self, others]
      | literal value =>
          rw [resolveAll, resolveAll]
          simp only [toOption_bind, others]
      | direction value =>
          rw [resolveAll, resolveAll]
          exact others

theorem Operand.toOption_resolveTerms_origins {operands : List Operand}
    (each : ∀ inner : Handle, .handle inner ∈ operands →
      (inner.resolve { scope with origins := origins }).toOption = (inner.resolve scope).toOption) :
    (resolveTerms { scope with origins := origins } operands).toOption =
      (resolveTerms scope operands).toOption := by
  match operands with
  | [] => rw [resolveTerms, resolveTerms]
  | .handle first :: .direction order :: rest =>
      have others := toOption_resolveTerms_origins fun inner member =>
        each inner (List.mem_cons_of_mem _ (List.mem_cons_of_mem _ member))
      rw [resolveTerms, resolveTerms]
      simp only [toOption_bind, each first List.mem_cons_self, others]
  | [.handle _] | .handle _ :: .handle _ :: _ | .handle _ :: .literal _ :: _ | .literal _ :: _
  | .direction _ :: _ => simp [resolveTerms]

/-- What is found where a handle is resolved does not depend on the origins of expressions. -/
theorem Handle.toOption_resolve_origins (handle : Handle) :
    (handle.resolve { scope with origins := origins }).toOption =
      (handle.resolve scope).toOption := by
  induction handle using Handle.induct with
  | passes handle ih =>
      cases handle with
      | field => rw [Handle.resolve, Handle.resolve]; rfl
      | column => rw [Handle.resolve, Handle.resolve]; rfl
      | expression operation operands =>
          have each (inner : Handle) (member : .handle inner ∈ operands) := ih inner member
          rw [Handle.resolve, Handle.resolve]
          split
          · simp only [toOption_bind, Operand.toOption_resolveTerms_origins scope origins each]
          · simp only [toOption_bind, Scope.toOption_checkTypes_origins,
              Operand.toOption_resolveAll_origins scope origins each]
            rfl

end Origins

/-! ## Queries -/

variable (newName : StepRef ↪ StepRef)

namespace Compilation

theorem toOption_resolveOption_origins (scope : Scope) (origins : Entries Handle StepRef)
    (handle : Option Handle) :
    (resolveOption { scope with origins := origins } handle).toOption =
      (resolveOption scope handle).toOption := by
  cases handle with
  | none => rfl
  | some handle =>
      simp only [resolveOption, toOption_bind, Handle.toOption_resolve_origins scope origins]

/-- A renamed draft has the same query. -/
theorem toOption_query_rename (compilation : Compilation) (draft : Draft) :
    (compilation.query (draft.rename newName)).toOption =
      (compilation.query draft).toOption.map
        (Prod.map (fun select => select) (Draft.rename newName)) := by
  have required (handle : Handle) :
      (handle.resolve (compilation.scope (draft.rename newName))).toOption =
        (handle.resolve (compilation.scope draft)).toOption :=
    handle.toOption_resolve_origins (compilation.scope draft) _
  have optional (handle : Option Handle) :
      (resolveOption (compilation.scope (draft.rename newName)) handle).toOption =
        (resolveOption (compilation.scope draft) handle).toOption :=
    toOption_resolveOption_origins (compilation.scope draft) _ handle
  have sources : (draft.rename newName).entitySources = draft.entitySources := rfl
  unfold query
  rw [sources]
  split
  · rfl
  · refine toOption_bind_same (toOption_mapM_congr fun field _ => ?_) fun fields => ?_
    · simp only [toOption_bind, required]
    refine toOption_bind_same (optional draft.filter) fun filter => ?_
    refine toOption_bind_same (optional draft.having) fun having => ?_
    -- The rest reads no origins.
    refine toOption_bind_same rfl fun between => ?_
    refine toOption_bind_same rfl fun origin => ?_
    refine toOption_bind_same rfl fun attached => ?_
    refine toOption_bind_same rfl fun crossed => ?_
    refine toOption_bind_same rfl fun columns => ?_
    refine toOption_bind_same rfl fun groupBy => ?_
    exact toOption_bind_same rfl fun orderBy => rfl

theorem toOption_add_rename (state : Compilation × List Draft) (draft : Draft) :
    (add (state.map (fun compilation => compilation) (List.map (Draft.rename newName)))
        (draft.rename newName)).toOption =
      (add state draft).toOption.map
        (Prod.map (fun compilation => compilation) (List.map (Draft.rename newName))) := by
  refine toOption_bind_map (toOption_query_rename newName state.1 draft) fun query _ => ?_
  simp [Prod.map, Draft.rename]

end Compilation

theorem toOption_resolveDrafts_rename (ring : Ring) (settings : Settings) (drafts : List Draft) :
    (resolveDrafts ring settings (drafts.map (Draft.rename newName))).toOption =
      (resolveDrafts ring settings drafts).toOption.map fun resolution =>
        ⟨resolution.select, resolution.drafts.map (Draft.rename newName)⟩ := by
  have run : ((drafts.map (Draft.rename newName)).foldlM Compilation.add
        ({ ring, settings }, [])).toOption =
      (drafts.foldlM Compilation.add ({ ring, settings }, [])).toOption.map
        (Prod.map (fun compilation => compilation) (List.map (Draft.rename newName))) :=
    toOption_foldlM_map
      (f := Prod.map (fun compilation => compilation) (List.map (Draft.rename newName)))
      (fun _ => True) (fun state draft _ _ => Compilation.toOption_add_rename newName state draft)
      (fun _ _ _ _ _ _ => trivial) ({ ring, settings }, []) trivial
  refine toOption_bind_map run fun state _ => ?_
  obtain ⟨compilation, resolved⟩ := state
  simp only [Prod.map]
  cases compilation.queries.getLast? <;> rfl

/-! ## Plans -/

def Compiled.rename (compiled : Compiled) : Compiled :=
  { compiled with
    plan := compiled.plan.rename newName
    drafts := compiled.drafts.map (Draft.rename newName) }

/-- A renamed plan is compiled to the same, up to the names in its plan and drafts. -/
theorem toOption_compile_rename {raw : Entries String String}
    (literals : ∀ plan, Plan.parse raw = .ok plan →
      ∀ step ∈ plan.steps, plan.namesByReference step = false)
    (ring : Ring) (settings : Settings) :
    (compile (Plan.renameRaw newName raw) ring settings).toOption =
      (compile raw ring settings).toOption.map (Compiled.rename newName) := by
  refine toOption_bind_map (Plan.toOption_parse_rename newName raw) fun plan parsed => ?_
  refine toOption_bind_map (Plan.toOption_drafts_rename newName
    (Plan.isArranged_of_parse parsed).forms (literals plan parsed)) fun drafts _ => ?_
  exact toOption_bind_map (toOption_resolveDrafts_rename newName ring settings drafts)
    fun resolution _ => rfl

/-- The names of steps do not matter.  Under other names for its steps a plan is compiled exactly if it
is compiled under its own, and then to the same query and statement with the same columns and units,
as long as no attribute of an entity is named by a reference. -/
theorem compile_renameRaw {raw : Entries String String}
    (literals : ∀ plan, Plan.parse raw = .ok plan →
      ∀ step ∈ plan.steps, plan.namesByReference step = false)
    (ring : Ring) (settings : Settings) :
    ((∃ renamed, compile (Plan.renameRaw newName raw) ring settings = .ok renamed) ↔
      ∃ compiled, compile raw ring settings = .ok compiled) ∧
    ∀ compiled renamed, compile raw ring settings = .ok compiled →
      compile (Plan.renameRaw newName raw) ring settings = .ok renamed →
      renamed.select = compiled.select ∧ renamed.statement = compiled.statement ∧
        renamed.dialect = compiled.dialect ∧
        renamed.drafts.map (·.select) = compiled.drafts.map (·.select) ∧
        renamed.drafts.map (·.units ring) = compiled.drafts.map (·.units ring) := by
  have same := toOption_compile_rename newName literals ring settings
  constructor
  · simp only [← toOption_eq_some_iff, same, Option.map_eq_some_iff]
    exact ⟨fun ⟨_, compiled, isOk, _⟩ => ⟨compiled, isOk⟩,
      fun ⟨compiled, isOk⟩ => ⟨_, compiled, isOk, rfl⟩⟩
  · intro compiled renamed isCompiled isRenamed
    rw [isCompiled, isRenamed] at same
    obtain rfl : renamed = compiled.rename newName := Option.some.inj same
    refine ⟨rfl, rfl, rfl, ?_, ?_⟩
    · exact List.map_map
    · exact List.map_map

/-- The steps of this plan have names of one and of two digits, and one of them is named by another
subplan. -/
theorem compile_renameRaw_aboveAverage :
    (Plan.renameRaw StepRef.reversed aboveAverage).map (·.1) =
        ["|1|", "|2|", "|3|", "|4|", "|5|", "|6|", "|7|", "|8|", "|9|", "|01|", "|11|", "|21|",
          "|31|", "|41|"] ∧
      ∃ ring compiled renamed, Ring.ofDocument (staffDocument "employee_badge") = .ok ring ∧
        compile aboveAverage ring {} = .ok compiled ∧
        compile (Plan.renameRaw StepRef.reversed aboveAverage) ring {} = .ok renamed ∧
        renamed.select = compiled.select ∧ renamed.statement = compiled.statement ∧
        renamed.dialect = compiled.dialect ∧
        renamed.drafts.map (·.select) = compiled.drafts.map (·.select) ∧
        renamed.drafts.map (·.units ring) = compiled.drafts.map (·.units ring) := by
  have runs : (Ring.ofDocument (staffDocument "employee_badge") >>= fun ring =>
      (Plan.parse aboveAverage) >>= fun plan => (plan.compile ring {}).map fun _ =>
        plan.steps.all fun step => !plan.namesByReference step) = .ok true := by
    decide +kernel
  obtain ⟨ring, loads, runs⟩ := bind_eq_ok_iff.mp runs
  obtain ⟨plan, parsed, runs⟩ := bind_eq_ok_iff.mp runs
  obtain ⟨compiled, isCompiled, tested⟩ := map_eq_ok_iff.mp runs
  have isCompiled : compile aboveAverage ring {} = .ok compiled :=
    bind_eq_ok_iff.mpr ⟨plan, parsed, isCompiled⟩
  have literals : ∀ other, Plan.parse aboveAverage = .ok other →
      ∀ step ∈ other.steps, other.namesByReference step = false := by
    intro other isOther step member
    obtain rfl : plan = other := Except.ok.inj (parsed.symm.trans isOther)
    simpa using List.all_eq_true.mp tested step member
  obtain ⟨succeeds, agrees⟩ := compile_renameRaw StepRef.reversed literals ring {}
  obtain ⟨renamed, isRenamed⟩ := succeeds.mpr ⟨compiled, isCompiled⟩
  exact ⟨by decide +kernel, ring, compiled, renamed, loads, isCompiled, isRenamed,
    agrees compiled renamed isCompiled isRenamed⟩

end SemanticQuery
