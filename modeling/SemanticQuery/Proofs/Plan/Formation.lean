import SemanticQuery.Proofs.Plan.Arranged
import SemanticQuery.Proofs.Plan.Cycles

/-!
# Why steps form no plan

Steps that were read are refused for six causes only, and each names something that is wrong with
them: there are none, one depends on a step that is missing, they form a cycle, they end in several
steps or in one that returns nothing, or one of them belongs to two subplans.  The other causes that
forming a plan can report are never met.  A graph without cycles has a sink, all steps lead to it if
it is the only one, and the walk from it comes by every step.
-/

namespace SemanticQuery.Plan

variable {steps : List Step} {graph : PlanGraph}

/-- What is wrong with steps that form no plan, with the cause that is reported. -/
inductive Refusal (steps : List Step) : Error → Prop where
  | emptyPlan (empty : steps = []) : Refusal steps .emptyPlan
  | undefinedReference {step : Step} (member : step ∈ steps) {target : StepRef}
      (reads : target ∈ step.dependencies) (missing : target ∉ steps.map (·.reference)) :
      Refusal steps
        (.undefinedReference step.reference.text step.operation.name target.text)
  | cycle {graph : PlanGraph} (formed : PlanGraph.ofSteps steps = .ok graph)
      (cyclic : ¬ graph.IsAcyclic) (names : List String) : Refusal steps (.cycle names)
  | multipleTerminals {graph : PlanGraph} (formed : PlanGraph.ofSteps steps = .ok graph)
      (several : 1 < graph.sinks.length) :
      Refusal steps (.multipleTerminals (graph.sinks.map StepRef.text))
  | terminalNotReturn {graph : PlanGraph} (formed : PlanGraph.ofSteps steps = .ok graph)
      {step : Step} (member : step ∈ steps) (single : graph.sinks = [step.reference])
      (inside : step.isOutput = false) :
      Refusal steps (.terminalNotReturn step.reference.text step.operation.name)
  | sharedStep {graph : PlanGraph} (formed : PlanGraph.ofSteps steps = .ok graph)
      (shared : ¬ Subplan.IsUnshared graph steps) {step : Step} (member : step ∈ steps)
      (inside : step.isOutput = false) (owners : List String) :
      Refusal steps (.sharedStep step.reference.text owners)

theorem Refusal.code_mem {error : Error} (refusal : Refusal steps error) :
    error.code ∈
      ["GRAPH_001", "RESOLUTION_001", "GRAPH_005", "GRAPH_003", "GRAPH_004", "GRAPH_007"] := by
  cases refusal <;> simp [Error.code, Error.classification]

theorem Refusal.kind_ne {error : Error} (refusal : Refusal steps error) :
    error.kind ≠ .internal := by
  cases refusal <;> simp [Error.kind, Error.classification]

/-! ## The parts of a plan -/

theorem failsOnly_graph : FailsOnly (Refusal steps) (PlanGraph.ofSteps steps) := by
  rw [PlanGraph.ofSteps_eq]
  split
  · rename_i error undefined
    obtain ⟨step, member, found⟩ := List.exists_of_findSome?_eq_some undefined
    obtain ⟨target, isMissing, rfl⟩ := Option.map_eq_some_iff.mp found
    have missing := List.find?_some isMissing
    rw [decide_eq_true_eq] at missing
    exact FailsOnly.error_iff.mpr
      (.undefinedReference member (List.mem_of_find?_eq_some isMissing) missing)
  · exact FailsOnly.ok _

theorem failsOnly_topologicalOrder (distinct : (steps.map (·.reference)).Nodup)
    (formed : PlanGraph.ofSteps steps = .ok graph) :
    FailsOnly (Refusal steps) graph.topologicalOrder := by
  rcases (PlanGraph.isSound_of_ofSteps distinct formed).topologicalOrder_cases with
    ⟨-, sorts⟩ | ⟨cyclic, refused⟩
  · exact sorts ▸ FailsOnly.ok _
  · exact refused ▸ FailsOnly.error_iff.mpr (.cycle formed cyclic _)

theorem isAcyclic_of_topologicalOrder (distinct : (steps.map (·.reference)).Nodup)
    (formed : PlanGraph.ofSteps steps = .ok graph) {order : List StepRef}
    (sorts : graph.topologicalOrder = .ok order) : graph.IsAcyclic := by
  have sound := PlanGraph.isSound_of_ofSteps distinct formed
  exact (sound.isOrder_of_topologicalOrder sorts).isAcyclic sound

theorem sinks_ne_nil (distinct : (steps.map (·.reference)).Nodup)
    (formed : PlanGraph.ofSteps steps = .ok graph) (acyclic : graph.IsAcyclic)
    (nonempty : steps ≠ []) : graph.sinks ≠ [] := by
  obtain ⟨step, member⟩ := List.exists_mem_of_ne_nil _ nonempty
  obtain ⟨sink, isSink, -⟩ := PlanGraph.exists_sink_of_mem distinct formed acyclic member
  exact List.ne_nil_of_mem isSink

theorem exists_step_of_mem_sinks (formed : PlanGraph.ofSteps steps = .ok graph) {sink : StepRef}
    (isSink : sink ∈ graph.sinks) : ∃ step ∈ steps, step.reference = sink := by
  have node := (List.mem_filter.mp isSink).1
  rw [PlanGraph.nodes_of_ofSteps formed] at node
  exact List.mem_map.mp node

theorem failsOnly_terminalOf (distinct : (steps.map (·.reference)).Nodup)
    (formed : PlanGraph.ofSteps steps = .ok graph) (acyclic : graph.IsAcyclic)
    (nonempty : steps ≠ []) : FailsOnly (Refusal steps) (terminalOf graph steps) := by
  have someSink := sinks_ne_nil distinct formed acyclic nonempty
  unfold terminalOf
  split
  · rename_i noSink
    exact absurd noSink someSink
  · rename_i sink single
    obtain ⟨step, member, rfl⟩ :=
      exists_step_of_mem_sinks formed (single ▸ List.mem_singleton_self sink)
    rw [stepIn?, Subplan.find?_reference_eq_some distinct member]
    dsimp only
    split
    · exact FailsOnly.ok _
    · rename_i inside
      exact FailsOnly.error_iff.mpr
        (.terminalNotReturn formed member single (Bool.not_eq_true _ ▸ inside))
  · rename_i others notOne
    refine FailsOnly.error_iff.mpr (.multipleTerminals formed ?_)
    have several : graph.sinks.length ≠ 1 := by
      intro one
      obtain ⟨sink, single⟩ := List.length_eq_one_iff.mp one
      exact notOne sink single
    have positive := List.length_pos_iff.mpr someSink
    omega

/-- All steps lead to the terminal step of a graph without cycles. -/
theorem isRooted_of_terminalOf (distinct : (steps.map (·.reference)).Nodup)
    (formed : PlanGraph.ofSteps steps = .ok graph) (acyclic : graph.IsAcyclic) {terminal : StepRef}
    (found : terminalOf graph steps = .ok terminal) : Subplan.IsRooted graph steps terminal :=
  Subplan.isRooted_of_sinks distinct formed acyclic (sinks_of_terminalOf found)
    (isOutputIn_of_terminalOf found)

/-- Steps that were read are refused for what is wrong with them only. -/
theorem failsOnly_ofSteps (distinct : (steps.map (·.reference)).Nodup) :
    FailsOnly (Refusal steps) (ofSteps steps) := by
  unfold ofSteps
  split
  · rename_i empty
    exact FailsOnly.error_iff.mpr (.emptyPlan (List.isEmpty_iff.mp empty))
  · rename_i nonempty
    rw [List.isEmpty_iff] at nonempty
    refine failsOnly_graph.bind fun graph formed => ?_
    refine (failsOnly_topologicalOrder distinct formed).bind fun order sorts => ?_
    have acyclic := isAcyclic_of_topologicalOrder distinct formed sorts
    refine (failsOnly_terminalOf distinct formed acyclic nonempty).bind fun terminal found => ?_
    rcases (isRooted_of_terminalOf distinct formed acyclic found).decompose_cases with
      ⟨-, subplans, split, decomposed⟩ | ⟨shared, step, member, inside, owners, refused⟩
    · obtain ⟨front, final, rfl, isTerminal⟩ := decomposed.last
      rw [split]
      refine (FailsOnly.ok _).bind fun subplans same => ?_
      cases same
      split
      · exact FailsOnly.ok _
      · rename_i unrooted
        rw [List.find?_eq_none] at unrooted
        exact absurd (decide_eq_true isTerminal) (unrooted final (by simp))
    · rw [refused]
      exact (FailsOnly.error_iff.mpr (.sharedStep formed shared member inside owners)).bind nofun

/-! ## The walk from the terminal step -/

structure IsWalked (graph : PlanGraph) (steps : List Step) : Prop where
  hasSink : steps ≠ [] → graph.sinks ≠ []
  /-- All steps lead to the sink if there is only one. -/
  leads : ∀ sink, graph.sinks = [sink] →
    ∀ step ∈ steps, Relation.ReflTransGen graph.Edge step.reference sink
  /-- The walk from a terminal step puts every step in a subplan. -/
  placed : ∀ terminal, terminalOf graph steps = .ok terminal → ∀ step ∈ steps,
    ∃ subplan ∈ Subplan.discover graph (Subplan.isOutputIn steps) terminal,
      subplan.has step.reference = true
  /-- It discovers every return step. -/
  discovered : ∀ terminal, terminalOf graph steps = .ok terminal → ∀ step ∈ steps,
    step.isOutput = true →
      ∃ subplan ∈ Subplan.discover graph (Subplan.isOutputIn steps) terminal,
        subplan.root = step.reference

theorem isWalked_of_isAcyclic (distinct : (steps.map (·.reference)).Nodup)
    (formed : PlanGraph.ofSteps steps = .ok graph) (acyclic : graph.IsAcyclic) :
    IsWalked graph steps where
  hasSink := sinks_ne_nil distinct formed acyclic
  leads := fun _ => PlanGraph.leads_of_sinks distinct formed acyclic
  placed := by
    intro terminal found step member
    have rooted := isRooted_of_terminalOf distinct formed acyclic found
    exact rooted.exists_place
      (Subplan.isDiscovered_discover rooted.sound acyclic rooted.member rooted.output) member
  discovered := by
    intro terminal found step member output
    have rooted := isRooted_of_terminalOf distinct formed acyclic found
    have walk := Subplan.isDiscovered_discover rooted.sound acyclic rooted.member rooted.output
    have nested := rooted.isNested_iff.mpr
      ((Subplan.isOutputIn_eq_true_iff distinct).mpr ⟨step, member, rfl, output⟩)
    exact List.mem_map.mp ((walk.nested _).mpr nested)

/-- Steps that were read are never refused for having no terminal step or for a step without a place,
and forming a plan of them breaks no invariant. -/
theorem ofSteps_refusals {raw : Entries String String} {steps : List Step}
    (read : parseSteps raw = .ok steps) :
    (∀ error, ofSteps steps = .error error →
        error.code ≠ "GRAPH_002" ∧ error.code ≠ "GRAPH_006" ∧ error.kind ≠ .internal ∧
          Refusal steps error) ∧
      ∀ graph, PlanGraph.ofSteps steps = .ok graph → graph.IsAcyclic → IsWalked graph steps := by
  obtain ⟨-, distinct⟩ := areParsed_of_parseSteps read
  refine ⟨fun error failed => ?_, fun graph => isWalked_of_isAcyclic distinct⟩
  have refusal := failsOnly_ofSteps distinct error failed
  have listed := refusal.code_mem
  refine ⟨?_, ?_, refusal.kind_ne, refusal⟩
  · rintro noTerminal
    simp [noTerminal] at listed
  · rintro unplaced
    simp [unplaced] at listed

/-- A plan that uses the step `|2|` both inside and outside of the return step `|4|`. -/
def sharedAge : Entries String String :=
  [("|1|", "(retrieve_entity Person)"), ("|2|", "(retrieve_attribute |1| age)"),
    ("|3|", "(collect |2|)"), ("|4|", "(return |3|)"), ("|5|", "(retrieve_attribute |4| |2|)"),
    ("|6|", "(add |5| |2|)"), ("|7|", "(collect |6|)"), ("|8|", "(return |7|)")]

/-- The walk from `|8|` discovers both return steps and puts the shared step and the entity it belongs
to in both subplans; the entity is reported. -/
theorem ofSteps_refusals_sharedAge :
    ∃ steps graph, parseSteps sharedAge = .ok steps ∧ PlanGraph.ofSteps steps = .ok graph ∧
      terminalOf graph steps = .ok ⟨"8", rfl⟩ ∧ IsWalked graph steps ∧
      ofSteps steps = .error (.sharedStep "|1|" ["alias_0", "alias_1"]) ∧
      Refusal steps (.sharedStep "|1|" ["alias_0", "alias_1"]) := by
  have runs : (do
      let steps ← parseSteps sharedAge
      let graph ← PlanGraph.ofSteps steps
      let _ ← graph.topologicalOrder
      pure (decide (terminalOf graph steps = .ok ⟨"8", rfl⟩ ∧
        ofSteps steps = .error (.sharedStep "|1|" ["alias_0", "alias_1"])))) =
        Except.ok true := by
    decide +kernel
  obtain ⟨steps, read, runs⟩ := bind_eq_ok_iff.mp runs
  obtain ⟨graph, formed, runs⟩ := bind_eq_ok_iff.mp runs
  obtain ⟨order, sorts, runs⟩ := bind_eq_ok_iff.mp runs
  obtain ⟨terminal, refused⟩ := of_decide_eq_true (Except.ok.inj runs)
  have acyclic := isAcyclic_of_topologicalOrder (areParsed_of_parseSteps read).distinct formed sorts
  obtain ⟨refusals, walks⟩ := ofSteps_refusals read
  exact ⟨steps, graph, read, formed, terminal, walks graph formed acyclic, refused,
    (refusals _ refused).2.2.2⟩

end SemanticQuery.Plan
