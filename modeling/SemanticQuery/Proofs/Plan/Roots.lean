import SemanticQuery.Proofs.Plan.Region

/-!
# The walk over return steps

From a return step the walk goes inwards to the return steps that are read in its region.  In a
graph without cycles its bound suffices: it comes by every nested return step, to each only after
those that are read in its region, and to the one it started from last and once.
-/

namespace SemanticQuery.Subplan

variable {graph : PlanGraph} {isOutput : StepRef → Bool}

def IsNested (graph : PlanGraph) (isOutput : StepRef → Bool) : StepRef → StepRef → Prop :=
  Relation.ReflTransGen (IsInner graph isOutput)

theorem IsNested.reflTransGen {inner root : StepRef} (nested : IsNested graph isOutput inner root) :
    Relation.ReflTransGen graph.Edge inner root := by
  induction nested with
  | refl => exact .refl
  | tail _ last ih => exact ih.trans last.transGen.to_reflTransGen

theorem IsNested.isOutput_eq_true {inner root : StepRef}
    (nested : IsNested graph isOutput inner root) (output : isOutput root = true) :
    isOutput inner = true := by
  rcases Relation.ReflTransGen.cases_head nested with rfl | ⟨_, first, -⟩
  · exact output
  · exact first.1

/-- Every step on a path to a return step belongs to the region of a return step nested in it. -/
theorem exists_inRegion {terminal step : StepRef} (acyclic : graph.IsAcyclic)
    (path : Relation.ReflTransGen graph.Edge step terminal) :
    ∃ root, IsNested graph isOutput root terminal ∧ InRegion graph isOutput root step := by
  induction path using Relation.ReflTransGen.head_induction_on with
  | refl => exact ⟨terminal, .refl, .inl rfl⟩
  | @head step child edge _ ih =>
      obtain ⟨root, nested, inRegion⟩ := ih
      cases kind : isOutput step with
      | false => exact ⟨root, nested, .inr (inRegion.of_edge kind edge)⟩
      | true =>
          have other : step ≠ root := by
            rintro rfl
            exact acyclic step (.head' edge inRegion.reflTransGen)
          exact ⟨step, .head ⟨kind, other, child, inRegion, edge⟩ nested, .inl rfl⟩

/-! ## Inner roots first -/

/-- Each return step stands after those that are read in its region. -/
inductive InwardFirst (graph : PlanGraph) (isOutput : StepRef → Bool) : List StepRef → Prop where
  | nil : InwardFirst graph isOutput []
  | concat {roots : List StepRef} {root : StepRef} (before : InwardFirst graph isOutput roots)
      (inner : ∀ step, IsInner graph isOutput step root → step ∈ roots) :
      InwardFirst graph isOutput (roots ++ [root])

namespace InwardFirst

theorem append {first second : List StepRef} (firstOk : InwardFirst graph isOutput first)
    (secondOk : InwardFirst graph isOutput second) :
    InwardFirst graph isOutput (first ++ second) := by
  induction secondOk with
  | nil => simpa using firstOk
  | concat _ inner ih =>
      rw [← List.append_assoc]
      exact .concat ih fun step nested => List.mem_append_right _ (inner step nested)

theorem flatMap {items : List StepRef} {pieces : StepRef → List StepRef}
    (each : ∀ item ∈ items, InwardFirst graph isOutput (pieces item)) :
    InwardFirst graph isOutput (items.flatMap pieces) := by
  induction items with
  | nil => exact .nil
  | cons item rest ih =>
      rw [List.flatMap_cons]
      have others := ih fun other member => each other (List.mem_cons_of_mem item member)
      exact (each item List.mem_cons_self).append others

theorem concat_iff {roots : List StepRef} {root : StepRef} :
    InwardFirst graph isOutput (roots ++ [root]) ↔
      InwardFirst graph isOutput roots ∧
        ∀ step, IsInner graph isOutput step root → step ∈ roots := by
  constructor
  · intro whole
    generalize same : roots ++ [root] = all at whole
    cases whole with
    | nil => simp at same
    | concat before inner =>
        obtain ⟨rfl, last⟩ := List.append_inj' same rfl
        cases last
        exact ⟨before, inner⟩
  · rintro ⟨before, inner⟩
    exact .concat before inner

theorem left {first second : List StepRef}
    (whole : InwardFirst graph isOutput (first ++ second)) : InwardFirst graph isOutput first := by
  induction second using List.reverseRecOn with
  | nil => simpa using whole
  | append_singleton before last ih =>
      rw [← List.append_assoc, concat_iff] at whole
      exact ih whole.1

theorem mem_of_isInner {before after : List StepRef} {root step : StepRef}
    (whole : InwardFirst graph isOutput (before ++ root :: after))
    (nested : IsInner graph isOutput step root) : step ∈ before := by
  rw [List.append_cons] at whole
  exact (concat_iff.mp whole.left).2 step nested

end InwardFirst

/-! ## The walk over roots -/

def rootNames (graph : PlanGraph) (isOutput : StepRef → Bool) (bound : Nat) (root : StepRef) :
    List StepRef :=
  (roots graph isOutput bound root).map (·.1)

theorem rootNames_succ (bound : Nat) (root : StepRef) :
    rootNames graph isOutput (bound + 1) root =
      (regionOf graph isOutput root).inner.flatMap (rootNames graph isOutput bound) ++ [root] := by
  simp [rootNames, roots, List.map_flatMap]
  rfl

/-- Each root comes with the members of its region. -/
theorem members_of_mem_roots {bound : Nat} {root : StepRef} {entry : StepRef × List StepRef}
    (member : entry ∈ roots graph isOutput bound root) :
    entry.2 = sortedSet StepRef.text (regionOf graph isOutput entry.1).members := by
  induction bound generalizing root with
  | zero => cases member
  | succ bound ih =>
      rw [roots] at member
      rcases List.mem_append.mp member with inner | last
      · obtain ⟨step, -, found⟩ := List.mem_flatMap.mp inner
        exact ih found
      · rw [List.mem_singleton.mp last]

theorem isNested_of_mem_rootNames (sound : graph.IsSound) {bound : Nat} {root step : StepRef}
    (member : step ∈ rootNames graph isOutput bound root) :
    IsNested graph isOutput step root := by
  induction bound generalizing root with
  | zero => cases member
  | succ bound ih =>
      rw [rootNames_succ] at member
      rcases List.mem_append.mp member with inner | last
      · obtain ⟨middle, found, later⟩ := List.mem_flatMap.mp inner
        exact (ih later).tail ((mem_inner_regionOf_iff sound).mp found)
      · rw [List.mem_singleton.mp last]
        exact .refl

/-- A number that bounds how often one can go inwards from a root. -/
noncomputable def nestingRank (graph : PlanGraph) : StepRef → Nat :=
  PlanGraph.rank (Function.swap graph.Edge) graph.nodes

theorem acyclic_swap (acyclic : graph.IsAcyclic) (step : StepRef) :
    ¬ Relation.TransGen (Function.swap graph.Edge) step step := by
  rw [Relation.transGen_swap]
  exact acyclic step

theorem nestingRank_lt (sound : graph.IsSound) (acyclic : graph.IsAcyclic) {inner root : StepRef}
    (nested : IsInner graph isOutput inner root) :
    nestingRank graph inner < nestingRank graph root := by
  have path : Relation.TransGen (Function.swap graph.Edge) root inner := by
    rw [Relation.transGen_swap]
    exact nested.transGen
  obtain ⟨-, -, child, -, edge⟩ := nested
  exact PlanGraph.rank_lt (acyclic_swap acyclic) path (sound.parent_mem edge)

theorem nestingRank_lt_length (acyclic : graph.IsAcyclic) {root : StepRef}
    (member : root ∈ graph.nodes) : nestingRank graph root < graph.nodes.length :=
  PlanGraph.rank_lt_length (acyclic_swap acyclic) member

theorem mem_rootNames_of_isNested (sound : graph.IsSound) (acyclic : graph.IsAcyclic) {bound : Nat}
    {root step : StepRef} (enough : nestingRank graph root < bound)
    (nested : IsNested graph isOutput step root) :
    step ∈ rootNames graph isOutput bound root := by
  induction bound generalizing root with
  | zero => cases enough
  | succ bound ih =>
      rw [rootNames_succ]
      rcases Relation.ReflTransGen.cases_tail nested with rfl | ⟨middle, earlier, last⟩
      · exact List.mem_append_right _ (List.mem_singleton_self _)
      · have smaller := nestingRank_lt sound acyclic last
        have found := ih (by omega) earlier
        exact List.mem_append_left _
          (List.mem_flatMap.mpr ⟨middle, (mem_inner_regionOf_iff sound).mpr last, found⟩)

/-- A larger bound takes the walk no further. -/
theorem roots_eq_of_le (sound : graph.IsSound) (acyclic : graph.IsAcyclic) {bound larger : Nat}
    {root : StepRef} (enough : nestingRank graph root < bound) (le : bound ≤ larger) :
    roots graph isOutput larger root = roots graph isOutput bound root := by
  induction bound generalizing larger root with
  | zero => cases enough
  | succ bound ih =>
      obtain ⟨larger, rfl⟩ := Nat.exists_eq_add_of_lt (Nat.lt_of_succ_le le)
      have inward : ∀ inner ∈ (regionOf graph isOutput root).inner,
          roots graph isOutput (bound + larger) inner = roots graph isOutput bound inner := by
        intro inner found
        have smaller := nestingRank_lt sound acyclic ((mem_inner_regionOf_iff sound).mp found)
        exact ih (by omega) (by omega)
      rw [roots, roots, List.flatMap_congr inward]

theorem inwardFirst_rootNames (sound : graph.IsSound) (acyclic : graph.IsAcyclic) {bound : Nat}
    {root : StepRef} (enough : nestingRank graph root < bound) :
    InwardFirst graph isOutput (rootNames graph isOutput bound root) := by
  induction bound generalizing root with
  | zero => cases enough
  | succ bound ih =>
      have left {inner : StepRef} (nested : IsInner graph isOutput inner root) :
          nestingRank graph inner < bound := by
        have smaller := nestingRank_lt sound acyclic nested
        omega
      rw [rootNames_succ]
      refine .concat (InwardFirst.flatMap ?_) ?_
      · intro inner found
        exact ih (left ((mem_inner_regionOf_iff sound).mp found))
      · intro inner nested
        refine List.mem_flatMap.mpr ⟨inner, (mem_inner_regionOf_iff sound).mpr nested, ?_⟩
        exact mem_rootNames_of_isNested sound acyclic (left nested) .refl

/-- The walk comes to the step it started from last, and to no other time. -/
theorem exists_rootNames_eq_concat (sound : graph.IsSound) (acyclic : graph.IsAcyclic) {bound : Nat}
    (positive : 0 < bound) (root : StepRef) :
    ∃ front, rootNames graph isOutput bound root = front ++ [root] ∧ root ∉ front := by
  obtain ⟨bound, rfl⟩ := Nat.exists_eq_succ_of_ne_zero (Nat.ne_of_gt positive)
  refine ⟨_, rootNames_succ bound root, ?_⟩
  intro member
  obtain ⟨inner, found, later⟩ := List.mem_flatMap.mp member
  have back := (isNested_of_mem_rootNames sound later).reflTransGen
  have forth := ((mem_inner_regionOf_iff sound).mp found).transGen
  exact acyclic root (Relation.TransGen.trans_right back forth)

end SemanticQuery.Subplan
