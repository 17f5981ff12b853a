import Mathlib.Logic.Relation
import SemanticQuery.Handle

/-!
# Analyses within handles

Where analyses occur in a handle, without going on into the columns of other subplans.  A handle is
taken to need an aggregate exactly when an analysis occurs below it as an operand of something other
than a connective: analyses that a connective is applied to directly are not noticed.
-/

namespace SemanticQuery

/-! ## Operands of handles -/

namespace Handle

def IsOperand : Handle → Handle → Prop
  | inner, .expression _ operands => .handle inner ∈ operands
  | _, .field .. | _, .column .. => False

/-- A property that passes from the operands of expressions to expressions holds of all handles. -/
theorem induct {property : Handle → Prop}
    (passes : ∀ handle, (∀ inner, IsOperand inner handle → property inner) → property handle)
    (handle : Handle) : property handle := by
  refine @Handle.rec property
    (fun operand => ∀ inner, operand = .handle inner → property inner)
    (fun operands => ∀ inner, .handle inner ∈ operands → property inner)
    ?_ ?_ ?_ ?_ ?_ ?_ ?_ ?_ handle
  · intro entity name
    exact passes _ nofun
  · intro operation operands ih
    exact passes _ ih
  · intro subplan name origin _
    exact passes _ nofun
  · rintro handle ih _ ⟨⟩
    exact ih
  · intro literal inner impossible
    cases impossible
  · intro direction inner impossible
    cases impossible
  · intro inner member
    cases member
  · intro operand rest first others inner member
    rcases List.mem_cons.mp member with same | later
    · exact first inner same.symm
    · exact others inner later

def isConnective : Handle → Bool
  | .expression operation _ => operation.isConnective
  | _ => false

def HasAnalysisBelow (handle : Handle) : Prop :=
  ∃ inner, Relation.TransGen IsOperand inner handle ∧ inner.isAnalysis = true

/-- Within a handle, a connective is applied directly to an analysis. -/
def ConnectsAnalysis (handle : Handle) : Prop :=
  ∃ outer inner, Relation.ReflTransGen IsOperand outer handle ∧ outer.isConnective = true ∧
    IsOperand inner outer ∧ inner.isAnalysis = true

theorem hasAnalysisBelow_iff {handle : Handle} :
    handle.HasAnalysisBelow ↔
      ∃ inner, IsOperand inner handle ∧ (inner.isAnalysis = true ∨ inner.HasAnalysisBelow) := by
  constructor
  · rintro ⟨inner, path, isAnalysis⟩
    rcases Relation.TransGen.tail'_iff.mp path with ⟨last, earlier, operand⟩
    rcases Relation.reflTransGen_iff_eq_or_transGen.mp earlier with rfl | deeper
    · exact ⟨last, operand, .inl isAnalysis⟩
    · exact ⟨last, operand, .inr ⟨inner, deeper, isAnalysis⟩⟩
  · rintro ⟨last, operand, isAnalysis | ⟨inner, deeper, isAnalysis⟩⟩
    · exact ⟨last, .single operand, isAnalysis⟩
    · exact ⟨inner, deeper.tail operand, isAnalysis⟩

end Handle

/-! ## What needs an aggregate -/

theorem Operand.anyAggregate_eq_true_iff {connective : Bool} {operands : List Operand} :
    Operand.anyAggregate connective operands = true ↔
      ∃ inner, .handle inner ∈ operands ∧
        (connective = false ∧ inner.isAnalysis = true ∨ inner.containsAggregate = true) := by
  induction operands with
  | nil => simp [Operand.anyAggregate]
  | cons operand rest ih =>
      rw [Operand.anyAggregate, Bool.or_eq_true, ih]
      cases operand with
      | handle first => simp [Operand.isAggregate, or_and_right, exists_or]
      | literal value => simp [Operand.isAggregate]
      | direction value => simp [Operand.isAggregate]

namespace Handle

theorem containsAggregate_iff_operand {handle : Handle} :
    handle.containsAggregate = true ↔
      ∃ inner, IsOperand inner handle ∧
        (handle.isConnective = false ∧ inner.isAnalysis = true ∨
          inner.containsAggregate = true) := by
  cases handle with
  | expression operation operands =>
      rw [containsAggregate, Operand.anyAggregate_eq_true_iff]
      rfl
  | field entity name => simp [containsAggregate, IsOperand]
  | column subplan name origin => simp [containsAggregate, IsOperand]

/-- A handle is taken to need an aggregate exactly when, within it, something other than a
connective is applied to an analysis. -/
theorem containsAggregate_iff {handle : Handle} :
    handle.containsAggregate = true ↔
      ∃ outer inner, Relation.ReflTransGen IsOperand outer handle ∧ outer.isConnective = false ∧
        IsOperand inner outer ∧ inner.isAnalysis = true := by
  constructor
  · induction handle using induct with
    | passes handle ih =>
        intro contains
        obtain ⟨inner, operand, ⟨noConnective, isAnalysis⟩ | deeper⟩ :=
          containsAggregate_iff_operand.mp contains
        · exact ⟨handle, inner, .refl, noConnective, operand, isAnalysis⟩
        · obtain ⟨outer, found, path, rest⟩ := ih inner operand deeper
          exact ⟨outer, found, path.tail operand, rest⟩
  · rintro ⟨outer, inner, path, noConnective, operand, isAnalysis⟩
    induction path with
    | refl =>
        exact containsAggregate_iff_operand.mpr ⟨inner, operand, .inl ⟨noConnective, isAnalysis⟩⟩
    | tail _ last ih => exact containsAggregate_iff_operand.mpr ⟨_, last, .inr ih⟩

/-- An analysis that occurs below a handle is noticed unless a connective is applied to it. -/
theorem hasAnalysisBelow_iff_containsAggregate {handle : Handle} :
    handle.HasAnalysisBelow ↔ handle.containsAggregate = true ∨ handle.ConnectsAnalysis := by
  rw [containsAggregate_iff]
  constructor
  · rintro ⟨inner, path, isAnalysis⟩
    obtain ⟨outer, operand, rest⟩ := Relation.TransGen.head'_iff.mp path
    cases kind : outer.isConnective with
    | false => exact .inl ⟨outer, inner, rest, kind, operand, isAnalysis⟩
    | true => exact .inr ⟨outer, inner, rest, kind, operand, isAnalysis⟩
  · rintro (⟨outer, inner, rest, -, operand, isAnalysis⟩ |
      ⟨outer, inner, rest, -, operand, isAnalysis⟩)
    · exact ⟨inner, .head' operand rest, isAnalysis⟩
    · exact ⟨inner, .head' operand rest, isAnalysis⟩

end Handle

end SemanticQuery
