import SemanticQuery.Compiled
import SemanticQuery.Proofs.Resolve.Handles
import SemanticQuery.Proofs.Resolve.Scoping
import SemanticQuery.Proofs.Ring.Complete

/-!
# The check of declared types

The types of an expression's operands are checked before the operands are resolved, so the check looks
up attributes that may be unknown.  Where the operands resolve these look-ups succeed, and all that is
left of the check is whether the types fit: with the check a plan compiles to what it compiles to
without, or a type mismatch is reported.
-/

namespace SemanticQuery

/-! ## Type mismatches -/

def Error.IsMismatch : Error → Prop
  | .semanticTypeMismatch .. => True
  | _ => False

theorem Error.IsMismatch.exists_eq {error : Error} (mismatch : error.IsMismatch) :
    ∃ step operation operand expected found,
      error = .semanticTypeMismatch step operation operand expected found := by
  cases error with
  | semanticTypeMismatch step operation operand expected found => exact ⟨_, _, _, _, _, rfl⟩
  | _ => cases mismatch

/-- A mismatch of an operand of an expression, reported for the step that the expression is noted
for. -/
def Error.IsMismatchOf (origins : Entries Handle StepRef) (operation : Operation)
    (operands : List Operand) (error : Error) : Prop :=
  ∃ operand expected found, error = .semanticTypeMismatch
    ((origins.get? (.expression operation operands)).map StepRef.text) operation.name operand
    expected found

theorem Error.IsMismatchOf.isMismatch {origins : Entries Handle StepRef} {operation : Operation}
    {operands : List Operand} {error : Error}
    (mismatch : error.IsMismatchOf origins operation operands) : error.IsMismatch := by
  obtain ⟨operand, expected, found, rfl⟩ := mismatch
  trivial

namespace Scope

variable {scope : Scope} {operation : Operation} {operands : List Operand}

def IsUntyped (scope : Scope) (operands : List Operand) (error : Error) : Prop :=
  ∃ entityName name, .handle (.field entityName name) ∈ operands ∧
    scope.declaredTypes entityName name = .error error

/-- The check reports a mismatch, or a field among the operands whose types are not found. -/
theorem failsOnly_checkTypes :
    FailsOnly (fun error => error.IsMismatchOf scope.origins operation operands ∨
      scope.IsUntyped operands error) (scope.checkTypes operation operands) := by
  unfold checkTypes
  split
  · refine FailsOnly.forM fun item member => ?_
    have isOperand := (List.of_mem_zip member).1
    unfold checkOperand
    split
    · rename_i entityName name isField
      rw [isField] at isOperand
      split
      · exact FailsOnly.ok ()
      · refine FailsOnly.bind (fun error unknown => .inr ⟨entityName, name, isOperand, unknown⟩)
          fun declared _ => ?_
        split
        · exact FailsOnly.ok ()
        · split
          · exact FailsOnly.ok ()
          · exact FailsOnly.error_iff.mpr (.inl ⟨_, _, _, rfl⟩)
    · exact FailsOnly.ok ()
  · exact FailsOnly.ok ()

/-- A field that resolves has types, or is known to have none: the look-ups of its types are among
those that resolving it makes. -/
theorem exists_declaredTypes {entityName name : String} {resolved : Resolved}
    (found : scope.field entityName name = .ok resolved) :
    ∃ types, scope.declaredTypes entityName name = .ok types := by
  obtain ⟨entity, known, found⟩ := bind_eq_ok_iff.mp found
  unfold declaredTypes
  dsimp only at found ⊢
  rw [known]
  split
  · exact ⟨_, rfl⟩
  · split at found
    · rename_i identifier
      exact ⟨_, if_pos identifier⟩
    · rename_i noIdentifier
      obtain ⟨a, isAttribute, -⟩ := bind_eq_ok_iff.mp found
      simp only [isAttribute, if_neg noIdentifier, bind, Except.bind]
      exact ⟨_, rfl⟩

/-- The types of a field are missing only if its entity or its attribute is unknown. -/
theorem declaredTypes_error_cases {entityName name : String} {error : Error}
    (failed : scope.declaredTypes entityName name = .error error) :
    error = .unknownEntity entityName ∨ ∃ base, error = .unknownAttribute entityName base := by
  unfold declaredTypes at failed
  dsimp only at failed
  split at failed
  · cases failed
  · rcases bind_eq_error_iff.mp failed with noEntity | ⟨entity, -, failed⟩
    · exact .inl (Ring.eq_unknownEntity noEntity)
    · split at failed
      · cases failed
      · rcases bind_eq_error_iff.mp failed with noAttribute | ⟨_, -, impossible⟩
        · exact (Ring.attributeOf_error_cases noAttribute).imp_right fun unknown => ⟨_, unknown⟩
        · cases impossible

end Scope

/-! ## Handles -/

/-- Settings that ask for the check of declared types, or not. -/
def Settings.validating (flag : Bool) (settings : Settings) : Settings :=
  { settings with validateTypes := flag }

def Scope.validating (flag : Bool) (scope : Scope) : Scope :=
  { scope with settings := scope.settings.validating flag }

section Handles

variable {scope : Scope} {operands : List Operand}

/-- A handle that resolves with the check resolves to the same without, and it fails only by a
mismatch if it resolves without. -/
def Handle.IsGuarded (scope : Scope) (handle : Handle) : Prop :=
  Guards Error.IsMismatch Eq (handle.resolve (scope.validating true))
    (handle.resolve (scope.validating false))

theorem Operand.guards_resolveAll
    (each : ∀ inner, .handle inner ∈ operands → inner.IsGuarded scope) :
    Guards Error.IsMismatch Eq (Operand.resolveAll (scope.validating true) operands)
      (Operand.resolveAll (scope.validating false) operands) := by
  induction operands with
  | nil => exact Guards.refl _
  | cons operand rest ih =>
      have others := ih fun inner member => each inner (List.mem_cons_of_mem _ member)
      cases operand with
      | handle first =>
          rw [Operand.resolveAll, Operand.resolveAll]
          exact (each first List.mem_cons_self).bind_eq fun _ _ => others.bind_refl _
      | literal value =>
          rw [Operand.resolveAll, Operand.resolveAll]
          exact others.bind_refl _
      | direction value =>
          rw [Operand.resolveAll, Operand.resolveAll]
          exact others

theorem Operand.guards_resolveTerms {operands : List Operand}
    (each : ∀ inner, .handle inner ∈ operands → inner.IsGuarded scope) :
    Guards Error.IsMismatch Eq (Operand.resolveTerms (scope.validating true) operands)
      (Operand.resolveTerms (scope.validating false) operands) := by
  match operands with
  | [] => exact Guards.refl _
  | .handle first :: .direction order :: rest =>
      rw [Operand.resolveTerms, Operand.resolveTerms]
      have later (inner : Handle) (member : .handle inner ∈ rest) : inner.IsGuarded scope :=
        each inner (by simp [member])
      exact (each first List.mem_cons_self).bind_eq fun _ _ =>
        (guards_resolveTerms later).bind_refl _
  | [.handle _] | .handle _ :: .handle _ :: _ | .handle _ :: .literal _ :: _ | .literal _ :: _
  | .direction _ :: _ =>
      simp only [Operand.resolveTerms]
      exact Guards.refl _

/-- Where the operands of an expression resolve, checking their types fails only by a mismatch. -/
theorem Scope.failsOnly_checkTypes_of_resolveAll {operation : Operation} {results : List Resolved}
    (found : Operand.resolveAll (scope.validating false) operands = .ok results) :
    FailsOnly Error.IsMismatch ((scope.validating true).checkTypes operation operands) := by
  intro error failed
  rcases failsOnly_checkTypes error failed with mismatch | ⟨entityName, name, member, unknown⟩
  · exact mismatch.isMismatch
  · obtain ⟨result, -, isResult⟩ := Operand.exists_of_resolveAll found member
    rw [Handle.resolve] at isResult
    obtain ⟨types, known⟩ := exists_declaredTypes isResult
    cases known.symm.trans unknown

theorem Scope.checkTypes_validating_false (operation : Operation) (operands : List Operand) :
    (scope.validating false).checkTypes operation operands = .ok () := by
  simp [checkTypes, validating, Settings.validating]

theorem Handle.isGuarded (scope : Scope) (handle : Handle) : handle.IsGuarded scope := by
  induction handle using Handle.induct with
  | passes handle ih =>
      unfold IsGuarded
      cases handle with
      | field entityName name =>
          rw [Handle.resolve, Handle.resolve]
          exact Guards.refl _
      | column subplan name origin =>
          rw [Handle.resolve, Handle.resolve]
          exact Guards.refl _
      | expression operation operands =>
          rw [Handle.resolve, Handle.resolve]
          split
          · exact (Operand.guards_resolveTerms ih).bind_refl _
          · rw [Scope.checkTypes_validating_false]
            -- The check comes first, and yet the operands that it is about resolve without it.
            refine Guards.check ?_ ((Operand.guards_resolveAll ih).bind_refl _)
            intro resolved succeeds
            obtain ⟨-, -, succeeds⟩ := bind_eq_ok_iff.mp succeeds
            obtain ⟨results, found, -⟩ := bind_eq_ok_iff.mp succeeds
            exact Scope.failsOnly_checkTypes_of_resolveAll found

end Handles

/-! ## Queries -/

namespace Compilation

def validating (flag : Bool) (compilation : Compilation) : Compilation :=
  { compilation with settings := compilation.settings.validating flag }

@[simp]
theorem ring_validating (flag : Bool) (compilation : Compilation) :
    (compilation.validating flag).ring = compilation.ring :=
  rfl

theorem guards_resolveOption (scope : Scope) (handle : Option Handle) :
    Guards Error.IsMismatch Eq (resolveOption (scope.validating true) handle)
      (resolveOption (scope.validating false) handle) := by
  cases handle with
  | none => exact Guards.refl _
  | some predicate => exact (predicate.isGuarded scope).bind_refl _

/-- Only the fields and the predicates of a draft are checked. -/
theorem guards_query (compilation : Compilation) (draft : Draft) :
    Guards Error.IsMismatch Eq ((compilation.validating true).query draft)
      ((compilation.validating false).query draft) := by
  simp only [query, ring_validating]
  cases draft.entitySources.find? fun name => !compilation.ring.isEntity name with
  | some unknown => exact Guards.refl _
  | none =>
      refine (Guards.mapM fun field _ =>
        (field.2.isGuarded (compilation.scope draft)).bind_refl _).bind_eq fun _ _ => ?_
      refine (guards_resolveOption (compilation.scope draft) draft.filter).bind_eq fun _ _ => ?_
      exact (guards_resolveOption (compilation.scope draft) draft.having).bind_refl _

/-- Two states of compiling drafts that differ in whether declared types are checked. -/
def Mirrors (state other : Compilation × List Draft) : Prop :=
  ∃ (compilation : Compilation) (resolved : List Draft),
    state = (compilation.validating true, resolved) ∧
      other = (compilation.validating false, resolved)

theorem guards_add {state other : Compilation × List Draft} (mirrors : Mirrors state other)
    (draft : Draft) : Guards Error.IsMismatch Mirrors (add state draft) (add other draft) := by
  obtain ⟨compilation, resolved, rfl, rfl⟩ := mirrors
  refine (guards_query compilation draft).bind ?_
  rintro ⟨query, last⟩ _ - rfl
  exact Guards.of_related ⟨{ compilation with
    queries := compilation.queries.put draft.id query
    exposed := compilation.exposed.put draft.id draft.select }, resolved ++ [last], rfl, rfl⟩

end Compilation

theorem guards_resolveDrafts (ring : Ring) (settings : Settings) (drafts : List Draft) :
    Guards Error.IsMismatch Eq (resolveDrafts ring (settings.validating true) drafts)
      (resolveDrafts ring (settings.validating false) drafts) := by
  unfold resolveDrafts
  have start : Compilation.Mirrors ({ ring, settings := settings.validating true }, [])
      ({ ring, settings := settings.validating false }, []) :=
    ⟨{ ring, settings }, [], rfl, rfl⟩
  refine (Guards.foldlM drafts
    (fun _ _ draft mirrors => Compilation.guards_add mirrors draft) start).bind ?_
  rintro _ _ - ⟨compilation, resolved, rfl, rfl⟩
  exact Guards.refl _

theorem guards_compile (raw : Entries String String) (ring : Ring) (settings : Settings) :
    Guards Error.IsMismatch Eq (compile raw ring (settings.validating true))
      (compile raw ring (settings.validating false)) := by
  refine (Guards.refl (Plan.parse raw)).bind_eq fun plan _ => ?_
  refine (Guards.refl plan.drafts).bind_eq fun drafts _ => ?_
  exact (guards_resolveDrafts ring settings drafts).bind_refl _

/-- Checking declared types leaves every result as it is and adds no failure but a type mismatch. -/
theorem compile_validates (raw : Entries String String) (ring : Ring) (settings : Settings) :
    (∀ compiled, compile raw ring { settings with validateTypes := true } = .ok compiled →
      compile raw ring { settings with validateTypes := false } = .ok compiled) ∧
    ∀ compiled, compile raw ring { settings with validateTypes := false } = .ok compiled →
      compile raw ring { settings with validateTypes := true } = .ok compiled ∨
        ∃ step operation operand expected found,
          compile raw ring { settings with validateTypes := true } =
            .error (.semanticTypeMismatch step operation operand expected found) := by
  obtain ⟨sound, refuses⟩ := guards_compile raw ring settings
  constructor
  · intro compiled checked
    obtain ⟨_, free, rfl⟩ := sound compiled checked
    exact free
  · intro compiled free
    cases checked : compile raw ring (settings.validating true) with
    | ok other =>
        obtain ⟨_, same, rfl⟩ := sound other checked
        exact .inl (checked.trans (same.symm.trans free))
    | error error =>
        have mismatch := refuses compiled free error checked
        obtain ⟨step, operation, operand, expected, found, rfl⟩ := mismatch.exists_eq
        exact .inr ⟨step, operation, operand, expected, found, checked⟩

def averageOf (name : String) : Entries String String :=
  [("|1|", "(retrieve_entity Employee)"), ("|2|", "(retrieve_attribute |1| " ++ name ++ ")"),
    ("|3|", "(average |2|)"), ("|4|", "(collect |3|)"), ("|5|", "(return |4|)")]

/-- Salaries, which declare no type, may be averaged with the check; identifiers only without. -/
theorem compile_validates_averageOf :
    ∃ ring compiled free step operation operand expected found,
      Ring.ofDocument (staffDocument "employee_badge") = .ok ring ∧
      compile (averageOf "salary") ring { validateTypes := true } = .ok compiled ∧
      compile (averageOf "salary") ring { validateTypes := false } = .ok compiled ∧
      compile (averageOf "id") ring { validateTypes := false } = .ok free ∧
      compile (averageOf "id") ring { validateTypes := true } =
        .error (.semanticTypeMismatch step operation operand expected found) := by
  have runs : (do
      let ring ← Ring.ofDocument (staffDocument "employee_badge")
      let _ ← compile (averageOf "salary") ring { validateTypes := true }
      let _ ← compile (averageOf "id") ring { validateTypes := false }
      pure (compile (averageOf "id") ring { validateTypes := true }).isOk) = Except.ok false := by
    decide +kernel
  obtain ⟨ring, loads, runs⟩ := bind_eq_ok_iff.mp runs
  obtain ⟨compiled, checked, runs⟩ := bind_eq_ok_iff.mp runs
  obtain ⟨free, unchecked, refused⟩ := bind_eq_ok_iff.mp runs
  have salary := (compile_validates (averageOf "salary") ring {}).1 compiled checked
  rcases (compile_validates (averageOf "id") ring {}).2 free unchecked with
    accepted | ⟨step, operation, operand, expected, found, failed⟩
  · rw [accepted] at refused
    cases refused
  · exact ⟨ring, compiled, free, step, operation, operand, expected, found, loads, checked, salary,
      unchecked, failed⟩

end SemanticQuery
