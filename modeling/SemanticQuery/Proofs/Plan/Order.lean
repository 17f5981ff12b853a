import Mathlib.Data.List.Perm.Subperm
import SemanticQuery.Proofs.Plan.Graph

/-!
# The order of a plan's steps

While a graph is sorted, the parents that each step still waits for are counted exactly, so a step
joins the queue when all its parents are in order.  An order of all steps therefore has parents
before their children, and a graph with such an order has no cycles.
-/

namespace SemanticQuery.PlanGraph

variable {graph : PlanGraph}

def ParentsFirst (graph : PlanGraph) (order : List StepRef) : Prop :=
  ∀ before step after, order = before ++ step :: after →
    ∀ parent, graph.Edge parent step → parent ∈ before

def missing (graph : PlanGraph) (order : List StepRef) (step : StepRef) : Nat :=
  ((graph.parents step).filter (· ∉ order)).length

theorem ParentsFirst.concat {order : List StepRef} {step : StepRef}
    (parentsFirst : graph.ParentsFirst order)
    (ready : ∀ parent, graph.Edge parent step → parent ∈ order) :
    graph.ParentsFirst (order ++ [step]) := by
  intro before other after whole parent edge
  rcases List.eq_nil_or_concat after with rfl | ⟨front, last, rfl⟩
  · obtain ⟨rfl, same⟩ := List.append_inj' whole rfl
    cases same
    exact ready parent edge
  · rw [List.concat_eq_append, ← List.cons_append, ← List.append_assoc] at whole
    obtain ⟨rfl, -⟩ := List.append_inj' whole rfl
    exact parentsFirst before other front rfl parent edge

/-- Taking one step into the order leaves each of its children with one parent fewer to wait for. -/
theorem missing_concat (sound : graph.IsSound) {order : List StepRef}
    {step child : StepRef} (fresh : step ∉ order) :
    graph.missing (order ++ [step]) child =
      if step ∈ graph.parents child then graph.missing order child - 1
      else graph.missing order child := by
  have shorter : (graph.parents child).filter (· ∉ order ++ [step]) =
      ((graph.parents child).filter (· ∉ order)).erase step := by
    rw [((sound.nodup_parents child).filter _).erase_eq_filter, List.filter_filter]
    refine List.filter_congr fun parent _ => ?_
    by_cases same : parent = step <;> simp [same]
  have listed : step ∈ (graph.parents child).filter (· ∉ order) ↔ step ∈ graph.parents child := by
    simp [fresh]
  rw [missing, shorter, List.length_erase]
  simp only [listed, missing]

theorem missing_eq_zero_iff {order : List StepRef} {step : StepRef} :
    graph.missing order step = 0 ↔ ∀ parent, graph.Edge parent step → parent ∈ order := by
  simp [missing, Edge, List.filter_eq_nil_iff]

/-! ## One step of the sort -/

/-- What counting one parent of each of some steps as done makes of a sort. -/
structure Released (children : List StepRef) (sorting released : Sorting) : Prop where
  order : released.order = sorting.order
  queue : released.queue = sorting.queue ++
    children.filter fun child => (sorting.waiting.get? child).any (· - 1 = 0)
  waiting : ∀ step, released.waiting.get? step =
    if step ∈ children then (sorting.waiting.get? step).map (· - 1)
    else sorting.waiting.get? step

theorem released_release (sorting : Sorting) (child : StepRef) :
    Released [child] sorting (release sorting child) := by
  unfold release
  split
  · rename_i unknown
    refine ⟨rfl, by simp [unknown], ?_⟩
    intro step
    split
    · rename_i same
      rw [List.mem_singleton.mp same, unknown]
      rfl
    · rfl
  · rename_i count known
    refine ⟨rfl, ?_, ?_⟩
    · by_cases last : count - 1 = 0 <;> simp [known, last]
    · intro step
      rw [Entries.get?_put]
      by_cases same : child = step
      · rw [if_pos same, if_pos (List.mem_singleton.mpr same.symm), ← same, known]
        rfl
      · rw [if_neg same, if_neg (fun member => same (List.mem_singleton.mp member).symm)]

theorem released_foldl {children : List StepRef} (distinct : children.Nodup) (sorting : Sorting) :
    Released children sorting (children.foldl release sorting) := by
  induction children generalizing sorting with
  | nil => exact ⟨rfl, by simp, by simp⟩
  | cons child rest ih =>
      obtain ⟨absent, others⟩ := List.nodup_cons.mp distinct
      have first := released_release sorting child
      have later := ih others (release sorting child)
      -- The other children are not the first one, so they wait for as many parents as before.
      have same {step : StepRef} (member : step ∈ rest) :
          (release sorting child).waiting.get? step = sorting.waiting.get? step := by
        rw [first.waiting, if_neg]
        rw [List.mem_singleton]
        rintro rfl
        exact absent member
      refine ⟨later.order.trans first.order, ?_, ?_⟩
      · have asBefore : rest.filter (fun step =>
            ((release sorting child).waiting.get? step).any (· - 1 = 0)) =
            rest.filter fun step => (sorting.waiting.get? step).any (· - 1 = 0) :=
          List.filter_congr fun step member => by rw [same member]
        rw [List.foldl_cons, later.queue, first.queue, asBefore, List.append_assoc,
          ← List.filter_append, List.singleton_append]
      · intro step
        rw [List.foldl_cons, later.waiting]
        by_cases member : step ∈ rest
        · rw [if_pos member, if_pos (List.mem_cons_of_mem _ member), same member]
        · rw [if_neg member, first.waiting]
          simp only [List.mem_cons, member, or_false, List.not_mem_nil]

structure IsSorting (graph : PlanGraph) (sorting : Sorting) : Prop where
  distinct : (sorting.order ++ sorting.queue).Nodup
  listed : ∀ step ∈ sorting.order ++ sorting.queue, step ∈ graph.nodes
  ready : ∀ step ∈ sorting.queue, ∀ parent, graph.Edge parent step → parent ∈ sorting.order
  parentsFirst : graph.ParentsFirst sorting.order
  waiting : ∀ step ∈ graph.nodes,
    sorting.waiting.get? step = some (graph.missing sorting.order step)

theorem IsSound.isSorting_startSorting (sound : graph.IsSound) :
    graph.IsSorting graph.startSorting where
  distinct := sound.distinct.filter _
  listed := fun step member => (List.mem_filter.mp member).1
  ready := by
    intro step member parent edge
    have none := (List.mem_filter.mp member).2
    rw [List.isEmpty_iff] at none
    rw [Edge, none] at edge
    cases edge
  parentsFirst := by
    intro before step after whole
    simp [startSorting] at whole
  waiting := by
    intro step member
    have counted : (step, (graph.parents step).length) ∈ graph.startSorting.waiting :=
      List.mem_map_of_mem member
    have keys : graph.startSorting.waiting.map (·.1) = graph.nodes := by
      simp [startSorting, Function.comp_def]
    rw [Entries.get?_of_mem (keys ▸ sound.distinct) counted, missing]
    simp [startSorting]

/-- Taking the first step of the queue keeps the sort right. -/
theorem IsSorting.take (sound : graph.IsSound) {sorting : Sorting} {step : StepRef}
    {queue : List StepRef} (sorts : graph.IsSorting sorting)
    (first : sorting.queue = step :: queue) :
    graph.IsSorting ((graph.children step).foldl release
      { sorting with queue := queue, order := sorting.order ++ [step] }) := by
  have released := released_foldl (sound.nodup_children step)
    { sorting with queue := queue, order := sorting.order ++ [step] }
  generalize (graph.children step).foldl release
    { sorting with queue := queue, order := sorting.order ++ [step] } = next at released
  obtain ⟨sortedDistinct, listed, ready, parentsFirst, waiting⟩ := sorts
  rw [first] at sortedDistinct listed ready
  obtain ⟨nextOrder, nextQueue, nextWaiting⟩ := released
  dsimp only at nextOrder nextQueue nextWaiting
  have fresh : step ∉ sorting.order := fun member =>
    (List.nodup_append.mp sortedDistinct).2.2 step member step List.mem_cons_self rfl
  have counted {child : StepRef} (member : child ∈ graph.nodes) :
      next.waiting.get? child = some (graph.missing (sorting.order ++ [step]) child) := by
    rw [nextWaiting, waiting child member, missing_concat sound fresh]
    simp only [sound.mem_children_iff, Edge]
    split <;> rfl
  -- A child that joins the queue has just seen the last of its parents.
  have joins {child : StepRef}
      (member : child ∈ (graph.children step).filter fun child =>
        (sorting.waiting.get? child).any (· - 1 = 0)) :
      graph.Edge step child ∧ graph.missing (sorting.order ++ [step]) child = 0 := by
    obtain ⟨isChild, last⟩ := List.mem_filter.mp member
    have edge := sound.mem_children_iff.mp isChild
    refine ⟨edge, ?_⟩
    rw [waiting child (sound.child_mem edge), Option.any_some, decide_eq_true_eq] at last
    have isParent : step ∈ graph.parents child := edge
    rw [missing_concat sound fresh, if_pos isParent, last]
  have earlier : sorting.order ++ step :: queue = (sorting.order ++ [step]) ++ queue := by simp
  rw [earlier] at sortedDistinct listed
  refine ⟨?_, ?_, ?_, ?_, ?_⟩
  · rw [nextOrder, nextQueue, ← List.append_assoc, List.nodup_append]
    refine ⟨sortedDistinct, (sound.nodup_children step).filter _, ?_⟩
    rintro known member child joined rfl
    -- What is in order or in the queue has no parent outside the order.
    have edge := (joins joined).1
    have parentKnown : step ∈ sorting.order := by
      rcases List.mem_append.mp member with inOrder | inQueue
      · rcases List.mem_append.mp inOrder with before | same
        · obtain ⟨front, back, whole⟩ := List.append_of_mem before
          rw [whole]
          exact List.mem_append_left _ (parentsFirst front known back whole step edge)
        · rw [List.mem_singleton.mp same] at edge
          exact ready step List.mem_cons_self step edge
      · exact ready known (List.mem_cons_of_mem _ inQueue) step edge
    exact fresh parentKnown
  · intro other member
    rw [nextOrder, nextQueue, ← List.append_assoc] at member
    rcases List.mem_append.mp member with known | joined
    · exact listed other known
    · exact sound.child_mem (joins joined).1
  · intro other member
    rw [nextOrder]
    rw [nextQueue] at member
    rcases List.mem_append.mp member with inQueue | joined
    · intro parent edge
      exact List.mem_append_left _ (ready other (List.mem_cons_of_mem _ inQueue) parent edge)
    · exact missing_eq_zero_iff.mp (joins joined).2
  · rw [nextOrder]
    exact parentsFirst.concat (ready step List.mem_cons_self)
  · intro other member
    rw [nextOrder]
    exact counted member

theorem IsSorting.sortFrom (sound : graph.IsSound) (bound : Nat) {sorting : Sorting}
    (sorts : graph.IsSorting sorting) :
    graph.IsSorting (graph.sortFrom bound sorting) := by
  induction bound generalizing sorting with
  | zero => exact sorts
  | succ bound ih =>
      rw [PlanGraph.sortFrom]
      split
      · exact sorts
      · rename_i step queue first
        exact ih (sorts.take sound first)

/-! ## The whole order -/

structure IsOrder (graph : PlanGraph) (order : List StepRef) : Prop where
  perm : order.Perm graph.nodes
  parentsFirst : graph.ParentsFirst order

theorem IsSound.isOrder_of_topologicalOrder (sound : graph.IsSound) {order : List StepRef}
    (sorted : graph.topologicalOrder = .ok order) : graph.IsOrder order := by
  have sorts := sound.isSorting_startSorting.sortFrom sound graph.nodes.length
  unfold topologicalOrder at sorted
  dsimp only at sorted
  split at sorted
  · rename_i all
    cases sorted
    refine ⟨?_, sorts.parentsFirst⟩
    have once := (List.nodup_append.mp sorts.distinct).1
    have known : (graph.sortFrom graph.nodes.length graph.startSorting).order ⊆ graph.nodes :=
      fun step member => sorts.listed step (List.mem_append_left _ member)
    exact (List.subperm_of_subset once known).perm_of_length_le all.ge
  · cases sorted

/-- In a list with parents first, the parents of a listed step are listed before it. -/
theorem ParentsFirst.idxOf_lt {order : List StepRef} (parentsFirst : graph.ParentsFirst order)
    (distinct : order.Nodup) {parent child : StepRef} (edge : graph.Edge parent child)
    (member : child ∈ order) : parent ∈ order ∧ order.idxOf parent < order.idxOf child := by
  obtain ⟨before, after, rfl⟩ := List.append_of_mem member
  have earlier := parentsFirst before child after rfl parent edge
  have once : child ∉ before := fun inBefore =>
    (List.nodup_append.mp distinct).2.2 _ inBefore _ List.mem_cons_self rfl
  refine ⟨List.mem_append_left _ earlier, ?_⟩
  rw [List.idxOf_append_of_mem earlier, List.idxOf_append_of_notMem once]
  exact Nat.lt_of_lt_of_le (List.idxOf_lt_length_of_mem earlier) (Nat.le_add_right _ _)

/-- What leads to a listed step is listed before it. -/
theorem ParentsFirst.idxOf_lt_of_transGen {order : List StepRef}
    (parentsFirst : graph.ParentsFirst order) (distinct : order.Nodup) {first last : StepRef}
    (path : Relation.TransGen graph.Edge first last) (member : last ∈ order) :
    order.idxOf first < order.idxOf last := by
  induction path with
  | single edge => exact (parentsFirst.idxOf_lt distinct edge member).2
  | tail _ edge ih =>
      obtain ⟨middleListed, less⟩ := parentsFirst.idxOf_lt distinct edge member
      exact (ih middleListed).trans less

/-- A graph whose steps can be ordered has no cycles. -/
theorem IsOrder.isAcyclic (sound : graph.IsSound) {order : List StepRef}
    (isOrder : graph.IsOrder order) : graph.IsAcyclic := by
  refine isAcyclic_of_height (order.idxOf ·) fun edge => ?_
  exact (isOrder.parentsFirst.idxOf_lt (isOrder.perm.nodup_iff.mpr sound.distinct) edge
    (isOrder.perm.mem_iff.mpr (sound.child_mem edge))).2

end SemanticQuery.PlanGraph
