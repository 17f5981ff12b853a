import SemanticQuery.Proofs.Plan.Decomposition
import SemanticQuery.Proofs.Plan.Parsed

/-!
# The division of plans that were read

The steps of a plan are divided among its subplans: no two share a step.  What a step of a subplan
depends on belongs to the same subplan unless it is a return step, and what a return step returns
is listed by a collect step.
-/

namespace SemanticQuery

namespace Subplan

variable {graph : PlanGraph} {isOutput : StepRef → Bool}

/-- Subplans that are regions of different return steps, numbered in order. -/
structure AreRegions (graph : PlanGraph) (isOutput : StepRef → Bool) (subplans : List Subplan) :
    Prop where
  regions : ∀ subplan ∈ subplans, IsRegion graph isOutput subplan
  distinct : (subplans.map (·.root)).Nodup
  increasing : subplans.Pairwise fun first second => first.id.number < second.id.number

/-- Even in a graph with cycles, what is discovered from a return step are regions. -/
theorem areRegions_discover (sound : graph.IsSound) {terminal : StepRef}
    (output : isOutput terminal = true) :
    AreRegions graph isOutput (discover graph isOutput terminal) := by
  let found := numbered (roots graph isOutput graph.nodes.length terminal)
  have regions : ∀ subplan ∈ found, IsRegion graph isOutput subplan := by
    intro subplan member
    have named : subplan.root ∈ rootNames graph isOutput graph.nodes.length terminal := by
      rw [rootNames, ← map_root_numbered]
      exact List.mem_map_of_mem member
    refine isRegion_of_members_eq sound
      ((isNested_of_mem_rootNames sound named).isOutput_eq_true output) ?_
    obtain ⟨item, itemMember, rfl⟩ := List.mem_map.mp member
    exact members_of_mem_roots (List.fst_mem_of_mem_zipIdx itemMember)
  have isKept := isKept_foldl_addDistinct regions
  exact ⟨fun subplan kept => regions subplan (isKept.sublist.subset kept), isKept.distinct,
    (pairwise_id_numbered _).sublist isKept.sublist⟩

namespace AreRegions

variable {subplans : List Subplan} {first second : Subplan}

/-- A return step belongs to its own region only. -/
theorem eq_of_has_output (areRegions : AreRegions graph isOutput subplans)
    (firstListed : first ∈ subplans) (secondListed : second ∈ subplans) {step : StepRef}
    (output : isOutput step = true) (firstHas : first.has step = true)
    (secondHas : second.has step = true) : first = second := by
  have isRoot {subplan : Subplan} (listed : subplan ∈ subplans) (holds : subplan.has step = true) :
      step = subplan.root := by
    rcases (areRegions.regions subplan listed).has_iff.mp holds with root | path
    · exact root
    · rw [path.isOutput_eq_false] at output
      cases output
  refine List.inj_on_of_nodup_map areRegions.distinct firstListed secondListed ?_
  rw [← isRoot firstListed firstHas, isRoot secondListed secondHas]

/-- What a step of a region reads belongs to the region, unless it is a return step. -/
theorem has_of_edge (areRegions : AreRegions graph isOutput subplans)
    (listed : first ∈ subplans) {step target : StepRef} (holds : first.has step = true)
    (edge : graph.Edge target step) : first.has target = true ∨ isOutput target = true := by
  cases kind : isOutput target with
  | true => exact .inr rfl
  | false =>
      have region := areRegions.regions first listed
      exact .inl (region.has_iff.mpr (.inr ((region.has_iff.mp holds).of_edge kind edge)))

end AreRegions

/-- A step that has a place and is no return step has no other one. -/
theorem eq_of_placeProblem? {subplans : List Subplan} {step : Step}
    (accepted : placeProblem? subplans step = none) (inside : step.isOutput = false)
    {first second : Subplan} (firstListed : first ∈ subplans) (secondListed : second ∈ subplans)
    (firstHas : first.has step.reference = true) (secondHas : second.has step.reference = true) :
    first = second := by
  have owner {subplan : Subplan} (listed : subplan ∈ subplans)
      (holds : subplan.has step.reference = true) :
      subplan ∈ subplans.filter fun subplan => subplan.has step.reference :=
    List.mem_filter.mpr ⟨listed, holds⟩
  have firstOwner := owner firstListed firstHas
  have secondOwner := owner secondListed secondHas
  simp only [placeProblem?] at accepted
  generalize subplans.filter (fun subplan => subplan.has step.reference) = owners at *
  cases owners with
  | nil => cases firstOwner
  | cons only others =>
      cases others with
      | nil => rw [List.mem_singleton.mp firstOwner, List.mem_singleton.mp secondOwner]
      | cons other more => simp [inside] at accepted

end Subplan

namespace Plan

structure IsDivided (plan : Plan) : Prop where
  distinct : (plan.steps.map (·.reference)).Nodup
  increasing : plan.subplans.Pairwise fun first second => first.id.number < second.id.number
  /-- No two subplans share a step. -/
  apart : ∀ first ∈ plan.subplans, ∀ second ∈ plan.subplans, ∀ step ∈ plan.steps,
    first.has step.reference = true → second.has step.reference = true → first = second
  /-- What a step of a subplan depends on is in the subplan or a return step. -/
  inside : ∀ subplan ∈ plan.subplans, ∀ step ∈ plan.steps, subplan.has step.reference = true →
    ∀ target ∈ step.dependencies,
      subplan.has target = true ∨ Subplan.isOutputIn plan.steps target = true
  /-- What a return step reads first is a collect step. -/
  collects : ∀ step ∈ plan.steps, step.operation = .output → ∀ target ∈ step.references.head?,
    ∀ collect, plan.step? target = some collect → collect.operation = .collect

/-- All arguments of a return step are references. -/
theorem head?_arguments_of_isCanonical {step : Step} (canonical : step.IsCanonical)
    (output : step.operation = .output) {target : StepRef}
    (first : target ∈ step.references.head?) : step.arguments.head? = some (.reference target) := by
  have shape := canonical.shape
  simp only [Step.checkShape, output, Step.checkReferencesOnly] at shape
  split at shape
  · cases shape
  · rename_i onlyReferences
    rw [List.findIdx?_eq_none_iff] at onlyReferences
    unfold Step.references at first
    cases arguments : step.arguments with
    | nil => simp [arguments] at first
    | cons argument rest =>
        cases argument with
        | literal value =>
            cases onlyReferences (.literal value) (arguments ▸ List.mem_cons_self)
        | reference found => simpa [arguments, Argument.reference?] using first

/-- The first argument of some operations refers to a step of the expected operation. -/
theorem operation_of_targetProblem? {steps : List Step}
    (targets : steps.findSome? (targetProblem? steps) = none) {step other : Step}
    (member : step ∈ steps) {expected : Operation}
    (expects : expectedTarget? step.operation = some expected) {target : StepRef}
    (first : step.arguments.head? = some (.reference target))
    (found : stepIn? steps target = some other) : other.operation = expected := by
  have accepted := List.findSome?_eq_none_iff.mp targets step member
  simp only [targetProblem?, expects, first, found] at accepted
  split at accepted
  · assumption
  · cases accepted

theorem isOutputIn_of_terminalOf {graph : PlanGraph} {steps : List Step} {terminal : StepRef}
    (found : terminalOf graph steps = .ok terminal) :
    Subplan.isOutputIn steps terminal = true := by
  unfold terminalOf at found
  split at found
  · cases found
  · split at found
    · rename_i step isStep
      split at found
      · rename_i output
        cases found
        rw [stepIn?] at isStep
        rw [Subplan.isOutputIn, isStep]
        exact output
      · cases found
    · cases found
  · cases found

/-- Every plan that is read is divided. -/
theorem isDivided_of_parse {raw : Entries String String} {plan : Plan}
    (parsed : parse raw = .ok plan) : plan.IsDivided := by
  obtain ⟨steps, read, targets, formed⟩ := parse_eq_ok_iff.mp parsed
  obtain ⟨canonical, distinct⟩ := areParsed_of_parseSteps read
  obtain ⟨-, rfl, graphOk, -, terminalOk, subplansOk, -⟩ := isFormed_of_ofSteps formed
  have output := isOutputIn_of_terminalOf terminalOk
  unfold Subplan.decompose at subplansOk
  dsimp only at subplansOk
  split at subplansOk
  · cases subplansOk
  · rename_i places
    have sound := PlanGraph.isSound_of_ofSteps distinct graphOk
    have areRegions := Subplan.areRegions_discover sound output
    rw [Except.ok.inj subplansOk] at areRegions places
    refine ⟨distinct, areRegions.increasing, ?_, ?_, ?_⟩
    · intro first firstListed second secondListed step member firstHas secondHas
      have isOutput := Subplan.isOutputIn_reference distinct member
      cases kind : step.isOutput with
      | true =>
          exact areRegions.eq_of_has_output firstListed secondListed (isOutput.trans kind) firstHas
            secondHas
      | false =>
          have accepted := List.findSome?_eq_none_iff.mp places step member
          exact Subplan.eq_of_placeProblem? accepted kind firstListed secondListed firstHas
            secondHas
    · intro subplan listed step member holds target reads
      exact areRegions.has_of_edge listed holds
        ((PlanGraph.edge_iff_mem_dependencies distinct graphOk member).mpr reads)
    · intro step member isReturn target first collect found
      exact operation_of_targetProblem? targets member (by rw [isReturn]; rfl)
        (head?_arguments_of_isCanonical (canonical step member) isReturn first) found

end Plan

end SemanticQuery
