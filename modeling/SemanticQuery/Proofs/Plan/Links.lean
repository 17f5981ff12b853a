import SemanticQuery.Plan.Graph
import SemanticQuery.Proofs.Entries

/-!
# Edges by either end

An edge enters the map of parents and the map of children together, and a dependency that is named
twice enters neither of them again.  So the two maps stay inverse to each other and list nothing twice,
whatever is linked.  With all dependencies defined, the parents of a step are its distinct dependencies.
-/

namespace SemanticQuery

namespace Links

/-- The edges are the same from both ends, and each is listed once. -/
structure IsInverse (links : Links) : Prop where
  inverse : ∀ parent child,
    parent ∈ links.parents.listed child ↔ child ∈ links.children.listed parent
  nodup_parents : ∀ child, (links.parents.listed child).Nodup
  nodup_children : ∀ parent, (links.children.listed parent).Nodup

theorem listed_parents_add (child : StepRef) (links : Links) (parent other : StepRef) :
    (links.add child parent).parents.listed other =
      if child = other then addNew parent (links.parents.listed child)
      else links.parents.listed other := by
  unfold add addNew
  split
  · split
    · rename_i same
      rw [same]
    · rfl
  · exact Entries.listed_push

theorem isInverse_empty : IsInverse ⟨[], []⟩ where
  inverse _ _ := by simp [Entries.listed, Entries.get?]
  nodup_parents _ := List.nodup_nil
  nodup_children _ := List.nodup_nil

/-- A parent is new to a child exactly if the child is new to the parent. -/
theorem IsInverse.listed_children_add {links : Links} (isInverse : links.IsInverse)
    (child parent other : StepRef) :
    (links.add child parent).children.listed other =
      if parent = other then addNew child (links.children.listed parent)
      else links.children.listed other := by
  unfold Links.add addNew
  simp only [isInverse.inverse]
  split
  · split
    · rename_i same
      rw [same]
    · rfl
  · exact Entries.listed_push

/-- A new edge enters both maps, so they stay inverse to each other. -/
theorem IsInverse.add {links : Links} (isInverse : links.IsInverse) (child parent : StepRef) :
    (links.add child parent).IsInverse where
  inverse := by
    intro first second
    rw [listed_parents_add, isInverse.listed_children_add]
    by_cases toChild : child = second <;> by_cases fromParent : parent = first
    · simp [toChild, fromParent, mem_addNew, isInverse.inverse]
    · simp [toChild, fromParent, Ne.symm fromParent, mem_addNew, isInverse.inverse]
    · simp [toChild, fromParent, Ne.symm toChild, mem_addNew, isInverse.inverse]
    · simp [toChild, fromParent, isInverse.inverse]
  nodup_parents := by
    intro other
    rw [listed_parents_add]
    split
    · exact nodup_addNew (isInverse.nodup_parents child)
    · exact isInverse.nodup_parents other
  nodup_children := by
    intro other
    rw [isInverse.listed_children_add]
    split
    · exact nodup_addNew (isInverse.nodup_children parent)
    · exact isInverse.nodup_children other

def addStep (links : Links) (step : Step) : Links :=
  step.dependencies.foldl (add step.reference) links

def ofSteps (steps : List Step) : Links :=
  steps.foldl addStep ⟨[], []⟩

theorem IsInverse.addStep {links : Links} (isInverse : links.IsInverse) (step : Step) :
    (links.addStep step).IsInverse :=
  List.foldlRecOn step.dependencies (Links.add step.reference) isInverse
    fun _ earlier parent _ => earlier.add step.reference parent

theorem isInverse_ofSteps (steps : List Step) : (ofSteps steps).IsInverse :=
  List.foldlRecOn steps Links.addStep isInverse_empty fun _ earlier step _ => earlier.addStep step

/-! ## The parents of a step -/

/-- Linking a step adds its dependencies to its own parents and to no others. -/
theorem listed_parents_addStep (links : Links) (step : Step) (other : StepRef) :
    (links.addStep step).parents.listed other =
      if step.reference = other then
        step.dependencies.foldl (fun known parent => addNew parent known)
          (links.parents.listed step.reference)
      else links.parents.listed other := by
  unfold addStep
  induction step.dependencies generalizing links with
  | nil =>
      split
      · rename_i same
        rw [List.foldl_nil, List.foldl_nil, same]
      · rfl
  | cons parent rest ih =>
      rw [List.foldl_cons, ih]
      split
      · rw [listed_parents_add, if_pos rfl, List.foldl_cons]
      · rename_i differ
        rw [listed_parents_add, if_neg differ]

theorem listed_parents_of_not_mem {steps : List Step} {reference : StepRef}
    (absent : reference ∉ steps.map (·.reference)) (links : Links) :
    (steps.foldl addStep links).parents.listed reference = links.parents.listed reference := by
  induction steps generalizing links with
  | nil => rfl
  | cons step rest ih =>
      rw [List.map_cons, List.mem_cons, not_or] at absent
      rw [List.foldl_cons, ih absent.2, listed_parents_addStep, if_neg (Ne.symm absent.1)]

theorem listed_parents_of_mem {steps : List Step} (distinct : (steps.map (·.reference)).Nodup)
    {links : Links} (fresh : ∀ step ∈ steps, links.parents.listed step.reference = [])
    {step : Step} (member : step ∈ steps) :
    (steps.foldl addStep links).parents.listed step.reference = step.dependencies.eraseDups := by
  induction steps generalizing links with
  | nil => cases member
  | cons first rest ih =>
      rw [List.map_cons, List.nodup_cons] at distinct
      have own := links.listed_parents_addStep first
      rw [List.foldl_cons]
      rcases List.mem_cons.mp member with rfl | later
      · rw [listed_parents_of_not_mem distinct.1, own, if_pos rfl, fresh step List.mem_cons_self,
          foldl_addNew_eq_eraseDups]
      · refine ih distinct.2 ?_ later
        intro other otherLater
        have differ : first.reference ≠ other.reference := by
          intro same
          exact distinct.1 (same ▸ List.mem_map_of_mem otherLater)
        rw [own, if_neg differ]
        exact fresh other (List.mem_cons_of_mem _ otherLater)

/-- The parents of a step are its dependencies in argument order, without repetitions. -/
theorem listed_parents_ofSteps {steps : List Step} (distinct : (steps.map (·.reference)).Nodup)
    {step : Step} (member : step ∈ steps) :
    (ofSteps steps).parents.listed step.reference = step.dependencies.eraseDups :=
  listed_parents_of_mem distinct (fun _ _ => rfl) member

/-- What is no step has no parents. -/
theorem mem_of_mem_listed_parents {steps : List Step} {parent child : StepRef}
    (reads : parent ∈ (ofSteps steps).parents.listed child) : child ∈ steps.map (·.reference) := by
  by_contra absent
  rw [ofSteps, listed_parents_of_not_mem absent] at reads
  cases reads

end Links

namespace PlanGraph

def undefinedIn? (known : List StepRef) (step : Step) : Option Error :=
  (step.dependencies.find? fun parent => parent ∉ known).map fun parent =>
    .undefinedReference step.reference.text step.operation.name parent.text

theorem linkStep_eq (known : List StepRef) (links : Links) (step : Step) :
    linkStep known links step =
      match undefinedIn? known step with
      | some error => .error error
      | none => .ok (links.addStep step) := by
  unfold linkStep undefinedIn? Links.addStep
  induction step.dependencies generalizing links with
  | nil => rfl
  | cons parent rest ih =>
      rw [List.foldlM_cons, linkDependency, List.find?_cons]
      by_cases isKnown : parent ∈ known
      · simp only [isKnown, if_true, not_true_eq_false, decide_false]
        exact ih _
      · simp only [isKnown, not_false_eq_true, decide_true]
        rfl

/-- The first dependency that is no step is reported; otherwise all dependencies are linked. -/
theorem ofSteps_eq (steps : List Step) :
    ofSteps steps =
      match steps.findSome? (undefinedIn? (steps.map (·.reference))) with
      | some error => .error error
      | none => .ok ⟨steps.map (·.reference), Links.ofSteps steps⟩ := by
  have linked (known : List StepRef) (links : Links) : steps.foldlM (linkStep known) links =
      match steps.findSome? (undefinedIn? known) with
      | some error => .error error
      | none => .ok (steps.foldl Links.addStep links) := by
    induction steps generalizing links with
    | nil => rfl
    | cons step rest ih =>
        rw [List.foldlM_cons, linkStep_eq, List.findSome?_cons]
        cases undefinedIn? known step with
        | some error => rfl
        | none => exact ih _
  unfold ofSteps
  dsimp only
  rw [linked]
  cases steps.findSome? (undefinedIn? (steps.map (·.reference))) with
  | some error => rfl
  | none => rfl

end PlanGraph

end SemanticQuery
