import SemanticQuery.Plan.Subplan
import SemanticQuery.Proofs.Plan.Graph

/-!
# The region of a return step

The search from a root with a stack and a bound finds exactly the steps that lead to the root
without passing a return step, and exactly the return steps at which these paths begin.
-/

namespace SemanticQuery.Subplan

variable {graph : PlanGraph} {isOutput : StepRef → Bool}

def OpenEdge (graph : PlanGraph) (isOutput : StepRef → Bool) (parent child : StepRef) : Prop :=
  isOutput parent = false ∧ graph.Edge parent child

/-- A step leads to another by a path on which no step before the last is a return. -/
def LeadsTo (graph : PlanGraph) (isOutput : StepRef → Bool) : StepRef → StepRef → Prop :=
  Relation.TransGen (OpenEdge graph isOutput)

/-- A step belongs with a root: it is the root or leads to it. -/
def InRegion (graph : PlanGraph) (isOutput : StepRef → Bool) (root step : StepRef) : Prop :=
  step = root ∨ LeadsTo graph isOutput step root

def IsInner (graph : PlanGraph) (isOutput : StepRef → Bool) (inner root : StepRef) : Prop :=
  isOutput inner = true ∧ inner ≠ root ∧
    ∃ child, InRegion graph isOutput root child ∧ graph.Edge inner child

theorem LeadsTo.isOutput_eq_false {step root : StepRef} (path : LeadsTo graph isOutput step root) :
    isOutput step = false := by
  obtain ⟨_, edge, -⟩ := Relation.TransGen.head'_iff.mp path
  exact edge.1

theorem LeadsTo.transGen {step root : StepRef} (path : LeadsTo graph isOutput step root) :
    Relation.TransGen graph.Edge step root :=
  Relation.TransGen.mono (fun _ _ edge => edge.2) step root path

theorem InRegion.reflTransGen {root step : StepRef} (region : InRegion graph isOutput root step) :
    Relation.ReflTransGen graph.Edge step root := by
  rcases region with rfl | path
  · exact .refl
  · exact path.transGen.to_reflTransGen

/-- A step that is no return and is read in a region belongs to the region. -/
theorem InRegion.of_edge {root step child : StepRef} (region : InRegion graph isOutput root child)
    (inside : isOutput step = false) (edge : graph.Edge step child) :
    LeadsTo graph isOutput step root := by
  rcases region with rfl | path
  · exact .single ⟨inside, edge⟩
  · exact .head ⟨inside, edge⟩ path

theorem IsInner.transGen {inner root : StepRef} (nested : IsInner graph isOutput inner root) :
    Relation.TransGen graph.Edge inner root := by
  obtain ⟨-, -, child, region, edge⟩ := nested
  exact .head' edge region.reflTransGen

/-! ## The search -/

/-- What the search knows: everything it has found belongs there, and what has been found but is not
explored is on the stack. -/
structure Explored (graph : PlanGraph) (isOutput : StepRef → Bool) (root : StepRef)
    (stack : List StepRef) (region : Region) : Prop where
  rooted : root ∈ region.members
  member : ∀ step ∈ region.members, InRegion graph isOutput root step
  inner : ∀ step ∈ region.inner, IsInner graph isOutput step root
  stacked : ∀ step ∈ stack, ∃ child ∈ region.members, graph.Edge step child
  closed : ∀ child ∈ region.members, ∀ parent, graph.Edge parent child →
    parent ∈ region.members ∨ parent ∈ region.inner ∨ parent ∈ stack

namespace Explored

variable {root step : StepRef} {stack : List StepRef} {region : Region}

theorem start : Explored graph isOutput root (graph.parents root).reverse ⟨[root], []⟩ where
  rooted := List.mem_singleton_self root
  member := by
    intro step found
    exact .inl (List.mem_singleton.mp found)
  inner := by simp
  stacked := by
    intro step found
    exact ⟨root, List.mem_singleton_self root, List.mem_reverse.mp found⟩
  closed := by
    intro child found parent edge
    rw [List.mem_singleton.mp found] at edge
    exact .inr (.inr (List.mem_reverse.mpr edge))

/-- A step that was found before is passed over. -/
theorem skip (explored : Explored graph isOutput root (step :: stack) region)
    (known : step ∈ region.members ∨ step ∈ region.inner) :
    Explored graph isOutput root stack region where
  rooted := explored.rooted
  member := explored.member
  inner := explored.inner
  stacked other found := explored.stacked other (List.mem_cons_of_mem step found)
  closed := by
    intro child found parent edge
    rcases explored.closed child found parent edge with member | inner | stacked
    · exact .inl member
    · exact .inr (.inl inner)
    · rcases List.mem_cons.mp stacked with rfl | later
      · exact known.imp_right .inl
      · exact .inr (.inr later)

/-- The search stops at a return step. -/
theorem stop (explored : Explored graph isOutput root (step :: stack) region)
    (fresh : step ∉ region.members) (output : isOutput step = true) :
    Explored graph isOutput root stack { region with inner := region.inner ++ [step] } where
  rooted := explored.rooted
  member := explored.member
  inner := by
    intro other found
    rcases List.mem_append.mp found with earlier | last
    · exact explored.inner other earlier
    · obtain ⟨child, member, edge⟩ := explored.stacked step List.mem_cons_self
      rw [List.mem_singleton.mp last]
      refine ⟨output, ?_, child, explored.member child member, edge⟩
      rintro rfl
      exact fresh explored.rooted
  stacked other found := explored.stacked other (List.mem_cons_of_mem step found)
  closed := by
    intro child found parent edge
    rcases explored.closed child found parent edge with member | inner | stacked
    · exact .inl member
    · exact .inr (.inl (List.mem_append_left _ inner))
    · rcases List.mem_cons.mp stacked with rfl | later
      · exact .inr (.inl (List.mem_append_right _ (List.mem_singleton_self _)))
      · exact .inr (.inr later)

/-- The search goes on to what a step reads. -/
theorem extend (explored : Explored graph isOutput root (step :: stack) region)
    (inside : isOutput step = false) :
    Explored graph isOutput root ((graph.parents step).reverse ++ stack)
      { region with members := region.members ++ [step] } where
  rooted := List.mem_append_left _ explored.rooted
  member := by
    intro other found
    rcases List.mem_append.mp found with earlier | last
    · exact explored.member other earlier
    · obtain ⟨child, member, edge⟩ := explored.stacked step List.mem_cons_self
      rw [List.mem_singleton.mp last]
      exact .inr ((explored.member child member).of_edge inside edge)
  inner := explored.inner
  stacked := by
    intro other found
    rcases List.mem_append.mp found with parent | later
    · exact ⟨step, List.mem_append_right _ (List.mem_singleton_self step),
        List.mem_reverse.mp parent⟩
    · obtain ⟨child, member, edge⟩ := explored.stacked other (List.mem_cons_of_mem step later)
      exact ⟨child, List.mem_append_left _ member, edge⟩
  closed := by
    intro child found parent edge
    rcases List.mem_append.mp found with earlier | last
    · rcases explored.closed child earlier parent edge with member | inner | stacked
      · exact .inl (List.mem_append_left _ member)
      · exact .inr (.inl inner)
      · rcases List.mem_cons.mp stacked with rfl | later
        · exact .inl (List.mem_append_right _ (List.mem_singleton_self _))
        · exact .inr (.inr (List.mem_append_right _ later))
    · rw [List.mem_singleton.mp last] at edge
      exact .inr (.inr (List.mem_append_left _ (List.mem_reverse.mpr edge)))

/-- Once the stack is empty, the whole region has been found. -/
theorem mem_members_iff (explored : Explored graph isOutput root [] region) :
    step ∈ region.members ↔ InRegion graph isOutput root step := by
  constructor
  · exact explored.member step
  · rintro (rfl | path)
    · exact explored.rooted
    · -- Along the path the last step is the root, and each earlier one is read by a member.
      have parent_mem {parent child : StepRef} (edge : OpenEdge graph isOutput parent child)
          (member : child ∈ region.members) : parent ∈ region.members := by
        rcases explored.closed child member parent edge.2 with member | inner | stacked
        · exact member
        · have output := (explored.inner parent inner).1
          rw [edge.1] at output
          cases output
        · cases stacked
      induction path using Relation.TransGen.head_induction_on with
      | single edge => exact parent_mem edge explored.rooted
      | head edge _ ih => exact parent_mem edge ih

theorem mem_inner_iff (explored : Explored graph isOutput root [] region) :
    step ∈ region.inner ↔ IsInner graph isOutput step root := by
  constructor
  · exact explored.inner step
  · rintro ⟨output, other, child, inRegion, edge⟩
    have member := explored.mem_members_iff.mpr inRegion
    rcases explored.closed child member step edge with member | inner | stacked
    · rcases explored.member step member with rfl | path
      · exact absurd rfl other
      · rw [path.isOutput_eq_false] at output
        cases output
    · exact inner
    · cases stacked

end Explored

/-! ## The bound of the search -/

def pending (graph : PlanGraph) (steps members : List StepRef) : Nat :=
  ((steps.filter (· ∉ members)).flatMap graph.parents).length

theorem pending_cons (graph : PlanGraph) (step : StepRef) (rest members : List StepRef) :
    pending graph (step :: rest) members =
      (if step ∈ members then 0 else (graph.parents step).length) + pending graph rest members := by
  by_cases member : step ∈ members <;> simp [pending, member]

theorem pending_append_le (graph : PlanGraph) (steps members more : List StepRef) :
    pending graph steps (members ++ more) ≤ pending graph steps members := by
  induction steps with
  | nil => exact Nat.le_refl 0
  | cons step rest ih =>
      rw [pending_cons, pending_cons]
      by_cases member : step ∈ members
      · simpa [member] using ih
      · rw [if_neg member]
        split <;> omega

/-- A new member takes its parents out of what is pending. -/
theorem pending_append_singleton (graph : PlanGraph) {steps members : List StepRef}
    {step : StepRef} (listed : step ∈ steps) (fresh : step ∉ members) :
    pending graph steps (members ++ [step]) + (graph.parents step).length ≤
      pending graph steps members := by
  induction steps with
  | nil => cases listed
  | cons first rest ih =>
      rw [pending_cons, pending_cons]
      by_cases same : first = step
      · have fewer := pending_append_le graph rest members [step]
        rw [same, if_pos (List.mem_append_right _ (List.mem_singleton_self step)), if_neg fresh]
        omega
      · have later := ih ((List.mem_cons.mp listed).resolve_left (Ne.symm same))
        have known_iff : first ∈ members ++ [step] ↔ first ∈ members := by simp [same]
        simp only [known_iff]
        omega

section Bound

variable (sound : graph.IsSound)
include sound

theorem pending_nodes_append {members : List StepRef} {step : StepRef} (fresh : step ∉ members) :
    pending graph graph.nodes (members ++ [step]) + (graph.parents step).length ≤
      pending graph graph.nodes members := by
  by_cases listed : step ∈ graph.nodes
  · exact pending_append_singleton graph listed fresh
  · rw [sound.parents_eq_nil listed]
    exact pending_append_le graph graph.nodes members [step]

/-- With a bound that exceeds what is left to take from the stack, the search finishes. -/
theorem explore_explored {root : StepRef} (bound : Nat) {stack : List StepRef} {region : Region}
    (explored : Explored graph isOutput root stack region)
    (enough : stack.length + pending graph graph.nodes region.members < bound) :
    Explored graph isOutput root [] (explore graph isOutput bound stack region) := by
  induction bound generalizing stack region with
  | zero => cases enough
  | succ bound ih =>
      cases stack with
      | nil => exact explored
      | cons step stack =>
          rw [List.length_cons] at enough
          rw [explore]
          split
          · rename_i known
            exact ih (explored.skip known) (by omega)
          · rename_i unknown
            rw [not_or] at unknown
            split
            · rename_i output
              have left : stack.length + pending graph graph.nodes region.members < bound := by omega
              exact ih (explored.stop unknown.1 output) left
            · rename_i inside
              rw [Bool.not_eq_true] at inside
              have taken := pending_nodes_append sound unknown.1
              refine ih (explored.extend inside) ?_
              rw [List.length_append, List.length_reverse]
              dsimp only
              omega

/-- A larger bound takes the search no further. -/
theorem explore_eq_of_le {bound larger : Nat} {stack : List StepRef} {region : Region}
    (enough : stack.length + pending graph graph.nodes region.members < bound) (le : bound ≤ larger) :
    explore graph isOutput larger stack region = explore graph isOutput bound stack region := by
  induction bound generalizing larger stack region with
  | zero => cases enough
  | succ bound ih =>
      obtain ⟨larger, rfl⟩ := Nat.exists_eq_add_of_lt (Nat.lt_of_succ_le le)
      cases stack with
      | nil => rfl
      | cons step stack =>
          rw [List.length_cons] at enough
          rw [explore, explore]
          split
          · exact ih (by omega) (by omega)
          · rename_i unknown
            rw [not_or] at unknown
            split
            · have left : stack.length + pending graph graph.nodes region.members < bound := by omega
              exact ih left (by omega)
            · have taken := pending_nodes_append sound unknown.1
              refine ih ?_ (by omega)
              rw [List.length_append, List.length_reverse]
              dsimp only
              omega

theorem pending_start_lt (root : StepRef) :
    (graph.parents root).reverse.length + pending graph graph.nodes [root] <
      graph.edges.length + 1 := by
  have whole : pending graph graph.nodes [] = graph.edges.length := by
    simp [pending, PlanGraph.edges, List.length_flatMap]
  have taken := pending_nodes_append sound (List.not_mem_nil : root ∉ [])
  rw [whole, List.nil_append] at taken
  rw [List.length_reverse]
  omega

theorem regionOf_explored (root : StepRef) :
    Explored graph isOutput root [] (regionOf graph isOutput root) :=
  explore_explored sound _ Explored.start (pending_start_lt sound root)

/-- The members of a root's region are the root and the steps that lead to it without passing a
return step. -/
theorem mem_members_regionOf_iff {root step : StepRef} :
    step ∈ (regionOf graph isOutput root).members ↔ InRegion graph isOutput root step :=
  (regionOf_explored sound root).mem_members_iff

/-- The search stops exactly at the return steps that are read in the region. -/
theorem mem_inner_regionOf_iff {root step : StepRef} :
    step ∈ (regionOf graph isOutput root).inner ↔ IsInner graph isOutput step root :=
  (regionOf_explored sound root).mem_inner_iff

end Bound

end SemanticQuery.Subplan
