import SemanticQuery.Proofs.Outcome
import SemanticQuery.Proofs.Plan.Order

/-!
# What the sort of a graph leaves out

The sort ends when its queue is empty, and no counter is ever lowered below zero.  A step that is left
out waits for a parent that is left out as well.  There are only finitely many steps, so going from
parent to parent leads around a cycle: what is left out are the steps on cycles and those that depend on
them.
-/

namespace SemanticQuery.PlanGraph

variable {graph : PlanGraph}

/-! ## Graphs of steps -/

/-- A graph has the dependencies of steps as its edges, each once, and knows them from both ends. -/
structure IsGraphOf (graph : PlanGraph) (steps : List Step) : Prop where
  nodes : graph.nodes = steps.map (·.reference)
  edge_iff : ∀ step ∈ steps, ∀ parent, graph.Edge parent step.reference ↔ parent ∈ step.dependencies
  nodup_parents : ∀ step, (graph.parents step).Nodup
  nodup_children : ∀ step, (graph.children step).Nodup
  inverse : ∀ parent child, parent ∈ graph.parents child ↔ child ∈ graph.children parent

theorem isGraphOf_of_ofSteps {steps : List Step} (distinct : (steps.map (·.reference)).Nodup)
    (formed : ofSteps steps = .ok graph) : graph.IsGraphOf steps := by
  have sound := isSound_of_ofSteps distinct formed
  refine ⟨nodes_of_ofSteps formed, ?_, sound.nodup_parents, sound.nodup_children,
    fun parent child => sound.mem_children_iff.symm⟩
  intro step member parent
  exact edge_iff_mem_dependencies distinct formed member

/-! ## Counting -/

def release? (sorting : Sorting) (child : StepRef) : Option Sorting :=
  if sorting.waiting.get? child = some 0 then none else some (release sorting child)

/-- The sort with all that could go wrong: there is no result if a counter is at zero when it is to
be lowered, or if steps are left in the queue when the bound is reached. -/
def sortFrom? (graph : PlanGraph) : Nat → Sorting → Option Sorting
  | 0, sorting => if sorting.queue.isEmpty then some sorting else none
  | bound + 1, sorting =>
      match sorting.queue with
      | [] => some sorting
      | step :: queue => do
          let taken := { sorting with queue := queue, order := sorting.order ++ [step] }
          let released ← (graph.children step).foldlM release? taken
          sortFrom? graph bound released

theorem foldlM_release? {children : List StepRef} (distinct : children.Nodup) {sorting : Sorting}
    (counted : ∀ child ∈ children, sorting.waiting.get? child ≠ some 0) :
    children.foldlM release? sorting = some (children.foldl release sorting) := by
  induction children generalizing sorting with
  | nil => rfl
  | cons child rest ih =>
      obtain ⟨absent, others⟩ := List.nodup_cons.mp distinct
      have later : ∀ other ∈ rest, (release sorting child).waiting.get? other ≠ some 0 := by
        intro other member
        rw [(released_release sorting child).waiting, if_neg]
        · exact counted other (List.mem_cons_of_mem _ member)
        · rw [List.mem_singleton]
          rintro rfl
          exact absent member
      rw [List.foldlM_cons, release?, if_neg (counted child List.mem_cons_self)]
      exact ih others later

namespace IsSorting

variable {sorting : Sorting} {step : StepRef} {queue : List StepRef}

theorem not_mem_order (sorts : graph.IsSorting sorting) (first : sorting.queue = step :: queue) :
    step ∉ sorting.order := by
  have distinct := sorts.distinct
  rw [first] at distinct
  exact fun member => (List.nodup_append.mp distinct).2.2 step member step List.mem_cons_self rfl

/-- When a step is taken, each of its children still waits for it. -/
theorem foldlM_release?_children (sorts : graph.IsSorting sorting) (sound : graph.IsSound)
    (first : sorting.queue = step :: queue) :
    (graph.children step).foldlM release?
        { sorting with queue := queue, order := sorting.order ++ [step] } =
      some ((graph.children step).foldl release
        { sorting with queue := queue, order := sorting.order ++ [step] }) := by
  refine foldlM_release? (sound.nodup_children step) ?_
  intro child member none
  have edge := sound.mem_children_iff.mp member
  have count := (sorts.waiting child (sound.child_mem edge)).symm.trans none
  exact sorts.not_mem_order first (missing_eq_zero_iff.mp (Option.some.inj count) step edge)

/-- What is in order or in the queue are different steps of the graph. -/
theorem length_le (sorts : graph.IsSorting sorting) :
    sorting.order.length + sorting.queue.length ≤ graph.nodes.length := by
  rw [← List.length_append]
  exact (List.subperm_of_subset sorts.distinct sorts.listed).length_le

end IsSorting

/-! ## What is taken into order -/

/-- Whatever waits for no parent is in order or in the queue. -/
def IsComplete (graph : PlanGraph) (sorting : Sorting) : Prop :=
  ∀ step ∈ graph.nodes, (∀ parent, graph.Edge parent step → parent ∈ sorting.order) →
    step ∈ sorting.order ++ sorting.queue

theorem isComplete_startSorting (graph : PlanGraph) : graph.IsComplete graph.startSorting := by
  intro step member ready
  refine List.mem_filter.mpr ⟨member, List.isEmpty_iff.mpr (List.eq_nil_iff_forall_not_mem.mpr ?_)⟩
  intro parent edge
  cases ready parent edge

/-- Taking a step puts into the queue whatever waited for it alone. -/
theorem IsComplete.take {sorting : Sorting} {step : StepRef} {queue : List StepRef}
    (complete : graph.IsComplete sorting) (sound : graph.IsSound)
    (sorts : graph.IsSorting sorting)
    (first : sorting.queue = step :: queue) :
    graph.IsComplete ((graph.children step).foldl release
      { sorting with queue := queue, order := sorting.order ++ [step] }) := by
  obtain ⟨order, nextQueue, -⟩ := released_foldl (sound.nodup_children step)
    { sorting with queue := queue, order := sorting.order ++ [step] }
  intro other member ready
  rw [order] at ready
  rw [order, nextQueue]
  dsimp only at ready ⊢
  by_cases edge : graph.Edge step other
  · -- The last parent is taken now.
    have none := missing_eq_zero_iff.mpr ready
    have isParent : step ∈ graph.parents other := edge
    rw [missing_concat sound (sorts.not_mem_order first), if_pos isParent] at none
    refine List.mem_append_right _ (List.mem_append_right _ (List.mem_filter.mpr ?_))
    refine ⟨sound.mem_children_iff.mpr edge, ?_⟩
    rw [sorts.waiting other member, Option.any_some, none]
    rfl
  · have earlier : ∀ parent, graph.Edge parent other → parent ∈ sorting.order := by
      intro parent reads
      refine (List.mem_append.mp (ready parent reads)).resolve_right fun same => edge ?_
      exact List.mem_singleton.mp same ▸ reads
    have known := complete other member earlier
    rw [first] at known
    simp only [List.mem_append, List.mem_cons] at known ⊢
    tauto

/-- A sort with enough steps left ends with an empty queue, and nothing goes wrong on the way. -/
theorem IsSorting.sortFrom?_eq (sound : graph.IsSound) {bound : Nat} {sorting : Sorting}
    (sorts : graph.IsSorting sorting)
    (complete : graph.IsComplete sorting)
    (enough : graph.nodes.length ≤ sorting.order.length + bound) :
    graph.sortFrom? bound sorting = some (graph.sortFrom bound sorting) ∧
      (graph.sortFrom bound sorting).queue = [] ∧
      graph.IsComplete (graph.sortFrom bound sorting) := by
  induction bound generalizing sorting with
  | zero =>
      have none : sorting.queue = [] := by
        have most := sorts.length_le
        exact List.eq_nil_of_length_eq_zero (by omega)
      refine ⟨?_, none, complete⟩
      rw [PlanGraph.sortFrom?, none]
      rfl
  | succ bound ih =>
      rw [PlanGraph.sortFrom?, PlanGraph.sortFrom]
      cases first : sorting.queue with
      | nil => exact ⟨rfl, first, complete⟩
      | cons step queue =>
          dsimp only
          rw [sorts.foldlM_release?_children sound first]
          refine ih (sorts.take sound first) (complete.take sound sorts first) ?_
          rw [(released_foldl (sound.nodup_children step) _).order, List.length_append,
            List.length_singleton]
          omega

/-! ## Cycles -/

/-- A step lies on a cycle or depends on a step that does, directly or not. -/
def FollowsCycle (graph : PlanGraph) (step : StepRef) : Prop :=
  ∃ origin, Relation.TransGen graph.Edge origin origin ∧
    Relation.ReflTransGen graph.Edge origin step

/-- Among finitely many steps of which each has a parent, all follow a cycle. -/
theorem followsCycle_of_parents {left : List StepRef}
    (parents : ∀ step ∈ left, ∃ parent ∈ left, graph.Edge parent step) {step : StepRef}
    (member : step ∈ left) : graph.FollowsCycle step := by
  by_contra free
  -- Without a cycle before the step, going to a parent leaves fewer steps to go back to.
  let back (child parent : StepRef) : Prop :=
    graph.Edge parent child ∧ Relation.ReflTransGen graph.Edge child step
  have forward {first last : StepRef} (path : Relation.TransGen back first last) :
      Relation.TransGen graph.Edge last first ∧ Relation.ReflTransGen graph.Edge first step := by
    induction path with
    | single edge => exact ⟨.single edge.1, edge.2⟩
    | tail _ edge ih => exact ⟨.head edge.1 ih.1, ih.2⟩
  have acyclic (other : StepRef) : ¬ Relation.TransGen back other other :=
    fun cycle => free ⟨other, (forward cycle).1, (forward cycle).2⟩
  have absurd (other : StepRef) (listed : other ∈ left)
      (leads : Relation.ReflTransGen graph.Edge other step) : False := by
    induction measure : rank back left other using Nat.strongRecOn generalizing other with
    | _ count ih =>
        obtain ⟨parent, parentListed, edge⟩ := parents other listed
        have smaller := rank_lt acyclic (.single ⟨edge, leads⟩) parentListed
        exact ih _ (measure ▸ smaller) parent parentListed (leads.head edge) rfl
  exact absurd step member .refl

/-- A list with parents first holds no step that follows a cycle. -/
theorem ParentsFirst.not_followsCycle {order : List StepRef}
    (parentsFirst : graph.ParentsFirst order) (distinct : order.Nodup) {step : StepRef}
    (member : step ∈ order) : ¬ graph.FollowsCycle step := by
  rintro ⟨origin, cycle, path⟩
  have isListed : origin ∈ order := by
    clear cycle
    induction path using Relation.ReflTransGen.head_induction_on with
    | refl => exact member
    | head edge _ ih => exact (parentsFirst.idxOf_lt distinct edge ih).1
  exact Nat.lt_irrefl _ (parentsFirst.idxOf_lt_of_transGen distinct cycle isListed)

/-! ## The whole sort -/

def sorted (graph : PlanGraph) : Sorting :=
  graph.sortFrom graph.nodes.length graph.startSorting

theorem IsSound.sortFrom?_startSorting (sound : graph.IsSound) :
    graph.sortFrom? graph.nodes.length graph.startSorting = some graph.sorted ∧
      graph.sorted.queue = [] ∧ graph.IsComplete graph.sorted :=
  sound.isSorting_startSorting.sortFrom?_eq sound graph.isComplete_startSorting
    (Nat.le_add_left _ _)

/-- The sort leaves out the steps that follow a cycle. -/
theorem IsSound.not_mem_sorted_iff (sound : graph.IsSound) {step : StepRef}
    (member : step ∈ graph.nodes) :
    step ∉ graph.sorted.order ↔ graph.FollowsCycle step := by
  have sorts : graph.IsSorting graph.sorted :=
    sound.isSorting_startSorting.sortFrom sound graph.nodes.length
  obtain ⟨-, ended, complete⟩ := sound.sortFrom?_startSorting
  constructor
  · intro leftOut
    have listed : step ∈ graph.nodes.filter (· ∉ graph.sorted.order) :=
      List.mem_filter.mpr ⟨member, decide_eq_true leftOut⟩
    refine followsCycle_of_parents ?_ listed
    intro other otherListed
    obtain ⟨otherMember, otherLeftOut⟩ := List.mem_filter.mp otherListed
    rw [decide_eq_true_eq] at otherLeftOut
    by_contra noParent
    have known := complete other otherMember fun parent edge => by
      by_contra missing
      exact noParent ⟨parent, List.mem_filter.mpr ⟨sound.parent_mem edge, decide_eq_true missing⟩, edge⟩
    rw [ended, List.append_nil] at known
    exact otherLeftOut known
  · intro follows listed
    exact sorts.parentsFirst.not_followsCycle (List.nodup_append.mp sorts.distinct).1 listed follows

theorem FollowsCycle.mem_nodes (sound : graph.IsSound) {step : StepRef}
    (follows : graph.FollowsCycle step) :
    step ∈ graph.nodes := by
  obtain ⟨origin, cycle, path⟩ := follows
  obtain ⟨_, -, edge⟩ := Relation.TransGen.tail'_iff.mp (cycle.trans_left path)
  exact sound.child_mem edge

/-- In a graph without cycles no step follows one. -/
theorem isAcyclic_iff : graph.IsAcyclic ↔ ∀ step, ¬ graph.FollowsCycle step := by
  constructor
  · rintro acyclic step ⟨origin, cycle, -⟩
    exact acyclic origin cycle
  · intro free step cycle
    exact free step ⟨step, cycle, .refl⟩

/-- The sort succeeds exactly for graphs without cycles, and otherwise names what it leaves out. -/
theorem IsSound.topologicalOrder_cases (sound : graph.IsSound) :
    graph.IsAcyclic ∧ graph.topologicalOrder = .ok graph.sorted.order ∨
      ¬ graph.IsAcyclic ∧ graph.topologicalOrder =
        .error (.cycle ((graph.nodes.filter (· ∉ graph.sorted.order)).map StepRef.text)) := by
  have sorts : graph.IsSorting graph.sorted :=
    sound.isSorting_startSorting.sortFrom sound graph.nodes.length
  have known : graph.sorted.order ⊆ graph.nodes := fun step member =>
    sorts.listed step (List.mem_append_left _ member)
  have once := (List.nodup_append.mp sorts.distinct).1
  by_cases acyclic : graph.IsAcyclic
  · have all : graph.nodes ⊆ graph.sorted.order := by
      intro step member
      by_contra leftOut
      exact isAcyclic_iff.mp acyclic step ((sound.not_mem_sorted_iff member).mp leftOut)
    have length : graph.sorted.order.length = graph.nodes.length :=
      Nat.le_antisymm (List.subperm_of_subset once known).length_le
        (List.subperm_of_subset sound.distinct all).length_le
    exact .inl ⟨acyclic, if_pos length⟩
  · refine .inr ⟨acyclic, if_neg fun length => acyclic (isAcyclic_iff.mpr fun step follows => ?_)⟩
    have perm := (List.subperm_of_subset once known).perm_of_length_le (Nat.le_of_eq length.symm)
    have member := follows.mem_nodes sound
    exact (sound.not_mem_sorted_iff member).mpr follows (perm.mem_iff.mpr member)

/-- The graph of steps can be ordered exactly if it has no cycles.  An order lists every step once and
after its parents; a refusal names, in the order of the plan, the steps that lie on a cycle or depend on
one.  On the way every counter that is lowered is above zero. -/
theorem topologicalOrder_exact {steps : List Step} (distinct : (steps.map (·.reference)).Nodup)
    (formed : ofSteps steps = .ok graph) :
    graph.IsGraphOf steps ∧
      graph.sortFrom? graph.nodes.length graph.startSorting =
        some (graph.sortFrom graph.nodes.length graph.startSorting) ∧
      ((∃ order, graph.topologicalOrder = .ok order) ↔ graph.IsAcyclic) ∧
      (∀ order, graph.topologicalOrder = .ok order → graph.IsOrder order) ∧
      ∀ error, graph.topologicalOrder = .error error →
        ∃ left : List StepRef, error = .cycle (left.map StepRef.text) ∧ left.Sublist graph.nodes ∧
          ∀ step, step ∈ left ↔ graph.FollowsCycle step := by
  have isGraph := isGraphOf_of_ofSteps distinct formed
  have sound := isSound_of_ofSteps distinct formed
  refine ⟨isGraph, sound.sortFrom?_startSorting.1, ?_,
    fun order => sound.isOrder_of_topologicalOrder, ?_⟩
  · rcases sound.topologicalOrder_cases with ⟨acyclic, ok⟩ | ⟨cyclic, refused⟩
    · exact ⟨fun _ => acyclic, fun _ => ⟨_, ok⟩⟩
    · refine ⟨?_, fun acyclic => (cyclic acyclic).elim⟩
      rintro ⟨order, ok⟩
      rw [refused] at ok
      cases ok
  · intro error failed
    rcases sound.topologicalOrder_cases with ⟨-, ok⟩ | ⟨-, refused⟩
    · rw [ok] at failed
      cases failed
    · rw [refused] at failed
      refine ⟨_, (Except.error.inj failed).symm, List.filter_sublist, ?_⟩
      intro step
      rw [List.mem_filter, decide_eq_true_eq]
      constructor
      · rintro ⟨member, leftOut⟩
        exact (sound.not_mem_sorted_iff member).mp leftOut
      · intro follows
        exact ⟨follows.mem_nodes sound,
          (sound.not_mem_sorted_iff (follows.mem_nodes sound)).mpr follows⟩

/-- Two steps that read each other, one of them twice, a step that reads itself, and steps before,
behind and beside them. -/
def entangledSteps : List Step :=
  [⟨⟨"root", rfl⟩, .squareRoot, [.reference ⟨"size", rfl⟩]⟩,
    ⟨⟨"sum", rfl⟩, .add, [.reference ⟨"size", rfl⟩, .reference ⟨"age", rfl⟩, .reference ⟨"size", rfl⟩]⟩,
    ⟨⟨"size", rfl⟩, .absolute, [.reference ⟨"sum", rfl⟩]⟩,
    ⟨⟨"person", rfl⟩, .retrieveEntity, [.literal (.bare "Person")]⟩,
    ⟨⟨"age", rfl⟩, .retrieveAttribute, [.reference ⟨"person", rfl⟩, .reference ⟨"root", rfl⟩]⟩,
    ⟨⟨"count", rfl⟩, .add, [.reference ⟨"count", rfl⟩, .literal (.bare "1")]⟩]

/-- What is before the cycles is not named, and naming an attribute by a step is no dependency. -/
theorem topologicalOrder_exact_entangledSteps :
    ∃ graph, ofSteps entangledSteps = .ok graph ∧ ¬ graph.IsAcyclic ∧
      graph.topologicalOrder = .error (.cycle ["|root|", "|sum|", "|size|", "|count|"]) ∧
      ∃ left : List StepRef, left.map StepRef.text = ["|root|", "|sum|", "|size|", "|count|"] ∧
        ∀ step, step ∈ left ↔ graph.FollowsCycle step := by
  have runs : (ofSteps entangledSteps).map (·.topologicalOrder) =
      .ok (.error (.cycle ["|root|", "|sum|", "|size|", "|count|"])) := by
    decide +kernel
  obtain ⟨graph, formed, refused⟩ := map_eq_ok_iff.mp runs
  obtain ⟨-, -, acyclic_iff, -, names⟩ := topologicalOrder_exact (by decide +kernel) formed
  obtain ⟨left, same, -, follows⟩ := names _ refused
  refine ⟨graph, formed, ?_, refused, left, ?_, follows⟩
  · rw [← acyclic_iff, refused]
    rintro ⟨order, impossible⟩
    cases impossible
  · exact (Error.cycle.inj same).symm

end SemanticQuery.PlanGraph
