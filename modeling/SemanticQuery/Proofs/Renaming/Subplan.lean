import SemanticQuery.Proofs.Plan.Discovery
import SemanticQuery.Proofs.Renaming.Graph

/-!
# Renaming the steps of subplans

Subplans are found and numbered in the same order under other names.  Only their members are kept in
the order of the names, and they are put in order again.
-/

namespace SemanticQuery.Subplan

variable (newName : StepRef ↪ StepRef)

/-! ## Members -/

def renameSet (steps : List StepRef) : List StepRef :=
  sortedSet StepRef.text (steps.map newName)

theorem mem_renameSet {step : StepRef} {steps : List StepRef} :
    newName step ∈ renameSet newName steps ↔ step ∈ steps := by
  rw [renameSet, mem_sortedSet fun _ _ => StepRef.text_injective, mem_map_newName]

theorem renameSet_sortedSet (steps : List StepRef) :
    renameSet newName (sortedSet StepRef.text steps) =
      sortedSet StepRef.text (steps.map newName) := by
  refine sortedSet_congr (fun _ _ => StepRef.text_injective) ?_
  intro step
  simp only [List.mem_map, mem_sortedSet fun _ _ => StepRef.text_injective]

def IsSet (steps : List StepRef) : Prop :=
  sortedSet StepRef.text steps = steps

theorem isSet_sortedSet (steps : List StepRef) : IsSet (sortedSet StepRef.text steps) :=
  sortedSet_congr (fun _ _ => StepRef.text_injective)
    fun _ => mem_sortedSet fun _ _ => StepRef.text_injective

theorem renameSet_eq_renameSet_iff {first second : List StepRef} (firstSet : IsSet first)
    (secondSet : IsSet second) :
    renameSet newName first = renameSet newName second ↔ first = second := by
  constructor
  · intro same
    rw [← firstSet, ← secondSet]
    refine sortedSet_congr (fun _ _ => StepRef.text_injective) ?_
    intro step
    rw [← mem_renameSet newName, same, mem_renameSet]
  · exact congrArg _

/-! ## Regions -/

def Region.rename (region : Region) : Region :=
  ⟨region.members.map newName, region.inner.map newName⟩

variable {newName} {isOutput isOutput' : StepRef → Bool}

/-- A step is known in the renamed region if it is known in the region. -/
theorem Region.known_rename (region : Region) (step : StepRef) :
    (newName step ∈ (region.rename newName).members ∨ newName step ∈ (region.rename newName).inner) ↔
      step ∈ region.members ∨ step ∈ region.inner :=
  or_congr (mem_map_newName newName) (mem_map_newName newName)

theorem explore_rename (same : ∀ step, isOutput' (newName step) = isOutput step) (graph : PlanGraph)
    (bound : Nat) (stack : List StepRef) (region : Region) :
    explore (graph.rename newName) isOutput' bound (stack.map newName) (region.rename newName) =
      (explore graph isOutput bound stack region).rename newName := by
  fun_induction explore graph isOutput bound stack region with
  | case1 => rfl
  | case2 => rfl
  | case3 bound step stack region known ih =>
      rw [List.map_cons, explore, if_pos ((region.known_rename step).mpr known), ih]
  | case4 bound step stack region unknown output ih =>
      rw [List.map_cons, explore, if_neg (mt (region.known_rename step).mp unknown), same,
        if_pos output, ← ih]
      simp [Region.rename]
  | case5 bound step stack region unknown noOutput ih =>
      rw [List.map_cons, explore, if_neg (mt (region.known_rename step).mp unknown), same,
        if_neg noOutput, ← ih]
      simp [Region.rename]

theorem regionOf_rename (same : ∀ step, isOutput' (newName step) = isOutput step) (graph : PlanGraph)
    (root : StepRef) :
    regionOf (graph.rename newName) isOutput' (newName root) =
      (regionOf graph isOutput root).rename newName := by
  rw [regionOf, regionOf, PlanGraph.parents_rename, PlanGraph.length_edges_rename, ← List.map_reverse]
  exact explore_rename same graph _ _ ⟨[root], []⟩

theorem roots_rename (same : ∀ step, isOutput' (newName step) = isOutput step) (graph : PlanGraph)
    (bound : Nat) (root : StepRef) :
    roots (graph.rename newName) isOutput' bound (newName root) =
      (roots graph isOutput bound root).map (Prod.map newName (renameSet newName)) := by
  induction bound generalizing root with
  | zero => rfl
  | succ bound ih =>
      simp only [roots, regionOf_rename same, Region.rename, List.flatMap_map, List.map_append,
        List.map_flatMap, ih, List.map_singleton, Prod.map, renameSet_sortedSet]

theorem isSet_of_mem_roots {graph : PlanGraph} {bound : Nat} {root : StepRef}
    {entry : StepRef × List StepRef} (member : entry ∈ roots graph isOutput bound root) :
    IsSet entry.2 := by
  rw [members_of_mem_roots member]
  exact isSet_sortedSet _

/-! ## Subplans -/

variable (newName)

def rename (subplan : Subplan) : Subplan where
  id := subplan.id
  root := newName subplan.root
  members := renameSet newName subplan.members

@[simp] theorem has_rename (subplan : Subplan) (step : StepRef) :
    (subplan.rename newName).has (newName step) = subplan.has step :=
  decide_eq_decide.mpr (mem_renameSet newName)

theorem numbered_rename (entries : List (StepRef × List StepRef)) :
    numbered (entries.map (Prod.map newName (renameSet newName))) =
      (numbered entries).map (rename newName) := by
  simp [numbered, rename, List.zipIdx_map]

/-- Subplans with the same members keep the same members. -/
theorem addDistinct_rename {subplans : List Subplan} {subplan : Subplan}
    (areSets : ∀ other ∈ subplans, IsSet other.members) (isSet : IsSet subplan.members) :
    addDistinct (subplans.map (rename newName)) (subplan.rename newName) =
      (addDistinct subplans subplan).map (rename newName) := by
  have same : ((subplans.map (rename newName)).any fun other =>
        other.members = (subplan.rename newName).members) =
      subplans.any fun other => other.members = subplan.members := by
    rw [Bool.eq_iff_iff, List.any_map, List.any_eq_true, List.any_eq_true]
    refine exists_congr fun other => and_congr_right fun member => ?_
    rw [Function.comp_apply, decide_eq_true_eq, decide_eq_true_eq]
    exact renameSet_eq_renameSet_iff newName (areSets other member) isSet
  unfold addDistinct
  rw [same]
  split
  · rfl
  · rw [List.map_append, List.map_singleton]

theorem foldl_addDistinct_rename {found kept : List Subplan}
    (keptSets : ∀ subplan ∈ kept, IsSet subplan.members)
    (foundSets : ∀ subplan ∈ found, IsSet subplan.members) :
    (found.map (rename newName)).foldl addDistinct (kept.map (rename newName)) =
      (found.foldl addDistinct kept).map (rename newName) := by
  induction found generalizing kept with
  | nil => rfl
  | cons subplan rest ih =>
      have isSet := foundSets subplan List.mem_cons_self
      rw [List.map_cons, List.foldl_cons, addDistinct_rename newName keptSets isSet, List.foldl_cons]
      refine ih ?_ fun other member => foundSets other (List.mem_cons_of_mem _ member)
      intro other member
      unfold addDistinct at member
      split at member
      · exact keptSets other member
      · rcases List.mem_append.mp member with earlier | last
        · exact keptSets other earlier
        · exact List.mem_singleton.mp last ▸ isSet

variable {newName}

/-- The subplans of a renamed graph are the renamed subplans. -/
theorem discover_rename (same : ∀ step, isOutput' (newName step) = isOutput step) (graph : PlanGraph)
    (terminal : StepRef) :
    discover (graph.rename newName) isOutput' (newName terminal) =
      (discover graph isOutput terminal).map (rename newName) := by
  have numbering {graph : PlanGraph} {isOutput : StepRef → Bool} {terminal : StepRef} :
      discover graph isOutput terminal =
        (numbered (roots graph isOutput graph.nodes.length terminal)).foldl addDistinct [] := rfl
  rw [numbering, numbering, PlanGraph.nodes_rename, List.length_map, roots_rename same,
    numbered_rename]
  have none : ∀ subplan ∈ ([] : List Subplan), IsSet subplan.members := nofun
  refine foldl_addDistinct_rename newName none ?_
  intro subplan member
  obtain ⟨item, listed, rfl⟩ := List.mem_map.mp member
  exact isSet_of_mem_roots (List.fst_mem_of_mem_zipIdx listed)

/-! ## Places -/

variable (newName)

theorem isOutputIn_rename (steps : List Step) (reference : StepRef) :
    isOutputIn (steps.map (Step.rename newName)) (newName reference) =
      isOutputIn steps reference := by
  simp only [isOutputIn, List.find?_map, Option.any_map, Function.comp_def, Step.reference_rename,
    newName.apply_eq_iff_eq]
  rfl

theorem isSome_placeProblem?_rename (subplans : List Subplan) (step : Step) :
    (placeProblem? (subplans.map (rename newName)) (step.rename newName)).isSome =
      (placeProblem? subplans step).isSome := by
  have owners : ((subplans.map (rename newName)).filter fun subplan =>
        subplan.has (step.rename newName).reference) =
      (subplans.filter fun subplan => subplan.has step.reference).map (rename newName) := by
    simp [List.filter_map, Function.comp_def]
  have output : (step.rename newName).isOutput = step.isOutput := rfl
  simp only [placeProblem?, owners, output, List.isEmpty_map, List.length_map]
  split
  · rfl
  · split <;> rfl

theorem toOption_decompose (graph : PlanGraph) (steps : List Step) (terminal : StepRef) :
    (decompose graph steps terminal).toOption =
      let subplans := discover graph (isOutputIn steps) terminal
      if (steps.findSome? (placeProblem? subplans)).isSome then none else some subplans := by
  unfold decompose
  dsimp only
  split <;> simp [*]

/-- Renamed steps are split into the renamed subplans. -/
theorem toOption_decompose_rename (graph : PlanGraph) (steps : List Step) (terminal : StepRef) :
    (decompose (graph.rename newName) (steps.map (Step.rename newName)) (newName terminal)).toOption =
      (decompose graph steps terminal).toOption.map (List.map (rename newName)) := by
  simp only [toOption_decompose, discover_rename (isOutputIn_rename newName steps),
    List.isSome_findSome?, List.any_map, Function.comp_def, isSome_placeProblem?_rename]
  split <;> rfl

end SemanticQuery.Subplan
