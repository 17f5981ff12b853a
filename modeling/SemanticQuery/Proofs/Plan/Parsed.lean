import Mathlib.Data.List.Forall2
import Mathlib.Data.List.Nodup
import SemanticQuery.Plan.Parse
import SemanticQuery.Proofs.Outcome
import SemanticQuery.Proofs.Step.Canonical

/-!
# Plans that were read

What holds of every plan that is read from a raw one: its steps are canonical and have distinct
references, and each of its other parts is computed from them.
-/

namespace SemanticQuery.Plan

structure AreParsed (steps : List Step) : Prop where
  canonical : ∀ step ∈ steps, step.IsCanonical
  distinct : (steps.map (·.reference)).Nodup

theorem any_reference_eq_true_iff (steps : List Step) (reference : StepRef) :
    (steps.any fun step => step.reference = reference) = true ↔
      reference ∈ steps.map (·.reference) := by
  simp

def IsReadAs (entry : String × String) (step : Step) : Prop :=
  ∃ reference, StepRef.ofText? (Text.trim entry.1) = some reference ∧
    Step.parse reference entry.2 = .ok step

/-- Adding a step reads it, under a reference that is not taken. -/
theorem addStep_eq_ok_iff {steps more : List Step} {entry : String × String} :
    addStep steps entry.1 entry.2 = .ok more ↔
      ∃ step, IsReadAs entry step ∧ step.reference ∉ steps.map (·.reference) ∧
        more = steps ++ [step] := by
  unfold addStep
  constructor
  · intro added
    split at added
    · cases added
    · rename_i reference isReference
      split at added
      · cases added
      · rename_i free
        rw [any_reference_eq_true_iff] at free
        obtain ⟨step, parsed, same⟩ := bind_eq_ok_iff.mp added
        cases same
        refine ⟨step, ⟨reference, isReference, parsed⟩, ?_, rfl⟩
        rwa [Step.reference_of_parse parsed]
  · rintro ⟨step, ⟨reference, isReference, parsed⟩, free, rfl⟩
    rw [Step.reference_of_parse parsed, ← any_reference_eq_true_iff] at free
    simp only [isReference, free, parsed]
    rfl

/-- The steps of a raw plan are those of its entries in their order, if their references differ. -/
theorem parseSteps_eq_ok_iff {raw : Entries String String} {steps : List Step} :
    parseSteps raw = .ok steps ↔
      List.Forall₂ IsReadAs raw steps ∧ (steps.map (·.reference)).Nodup := by
  constructor
  · intro read
    refine foldlM_keeps_prefix (fun entries steps =>
      List.Forall₂ IsReadAs entries steps ∧ (steps.map (·.reference)).Nodup) ?_ ⟨.nil, by simp⟩ read
    rintro before entry later steps after - ⟨reads, distinct⟩ added
    obtain ⟨step, isRead, free, rfl⟩ := addStep_eq_ok_iff.mp added
    refine ⟨List.rel_append reads (.cons isRead .nil), ?_⟩
    rw [List.map_append, List.map_singleton, List.nodup_append']
    exact ⟨distinct, by simp, by simpa using free⟩
  · rintro ⟨reads, distinct⟩
    -- The induction is on the entries that are left; the steps before them are read.
    suffices ∀ before, ((before ++ steps).map (·.reference)).Nodup →
        raw.foldlM (fun steps entry => addStep steps entry.1 entry.2) before = .ok (before ++ steps) from
      this [] distinct
    clear distinct
    induction reads with
    | nil => exact fun before _ => by rw [List.append_nil]; rfl
    | @cons entry step entries others isRead _ ih =>
        intro before distinct
        have free : step.reference ∉ before.map (·.reference) := by
          intro taken
          rw [List.map_append, List.map_cons, List.nodup_append] at distinct
          exact distinct.2.2 _ taken _ List.mem_cons_self rfl
        rw [List.append_cons] at distinct ⊢
        rw [List.foldlM_cons, addStep_eq_ok_iff.mpr ⟨step, isRead, free, rfl⟩]
        exact ih _ distinct

theorem areParsed_of_parseSteps {raw : Entries String String} {steps : List Step}
    (read : parseSteps raw = .ok steps) : AreParsed steps := by
  obtain ⟨reads, distinct⟩ := parseSteps_eq_ok_iff.mp read
  refine ⟨?_, distinct⟩
  clear distinct read
  induction reads with
  | nil => exact nofun
  | cons isRead _ ih =>
      obtain ⟨reference, -, parsed⟩ := isRead
      exact List.forall_mem_cons.mpr ⟨Step.isCanonical_of_parse parsed, ih⟩

/-! ## The parts of a plan -/

structure IsFormed (steps : List Step) (plan : Plan) : Prop where
  nonempty : steps ≠ []
  steps_eq : plan.steps = steps
  graph_eq : PlanGraph.ofSteps steps = .ok plan.graph
  order_eq : plan.graph.topologicalOrder = .ok plan.order
  terminal_eq : terminalOf plan.graph steps = .ok plan.terminal
  subplans_eq : Subplan.decompose plan.graph steps plan.terminal = .ok plan.subplans
  outermost_eq : ∃ subplan,
    (plan.subplans.find? fun subplan => subplan.root = plan.terminal) = some subplan ∧
      plan.outermost = subplan.id

theorem isFormed_of_ofSteps {steps : List Step} {plan : Plan} (formed : ofSteps steps = .ok plan) :
    IsFormed steps plan := by
  unfold ofSteps at formed
  split at formed
  · cases formed
  · rename_i nonempty
    obtain ⟨graph, graphOk, formed⟩ := bind_eq_ok_iff.mp formed
    obtain ⟨order, orderOk, formed⟩ := bind_eq_ok_iff.mp formed
    obtain ⟨terminal, terminalOk, formed⟩ := bind_eq_ok_iff.mp formed
    obtain ⟨subplans, subplansOk, formed⟩ := bind_eq_ok_iff.mp formed
    split at formed
    · rename_i subplan found
      cases formed
      exact ⟨by simpa using nonempty, rfl, graphOk, orderOk, terminalOk, subplansOk, subplan,
        found, rfl⟩
    · cases formed

/-- Reading a raw plan reads its steps, checks what they refer to and forms the plan. -/
theorem parse_eq_ok_iff {raw : Entries String String} {plan : Plan} :
    parse raw = .ok plan ↔
      ∃ steps, parseSteps raw = .ok steps ∧ steps.findSome? (targetProblem? steps) = none ∧
        ofSteps steps = .ok plan := by
  unfold parse
  rw [bind_eq_ok_iff]
  constructor
  · rintro ⟨steps, read, formed⟩
    split at formed
    · cases formed
    · rename_i targets
      exact ⟨steps, read, targets, formed⟩
  · rintro ⟨steps, read, targets, formed⟩
    refine ⟨steps, read, ?_⟩
    rw [targets]
    exact formed

end SemanticQuery.Plan
