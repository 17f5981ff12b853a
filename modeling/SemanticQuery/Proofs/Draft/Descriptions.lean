import SemanticQuery.Plan.Describe
import SemanticQuery.Proofs.Draft.Provenance
import SemanticQuery.Proofs.Plan.Arranged
import SemanticQuery.Proofs.Renaming.Draft

/-!
# Descriptions end

A description of a step follows all references among its arguments, also the one by which a retrieval
names an attribute, which is no dependency.  If a plan can be drafted, each of them leads to an earlier
step: an attribute that is named by a step is looked for in another subplan, whose root the retrieval
depends on, and all steps of a subplan lead to its root.  So a description can be given without a
bound, and the bound by the number of steps leaves nothing out.
-/

namespace SemanticQuery

/-! ## References to earlier steps -/

namespace Draft

variable {plan : Plan} {built : List Draft} {subplan : Subplan} {findings : Findings}
  {draft after : Draft} {step : Step} {found : Handle}

theorem has_of_columnRead {parent : Subplan} {name : StepRef} {column : String}
    (read : draft.columnRead findings parent step (.reference name) = .ok column) :
    parent.has name = true := by
  unfold columnRead at read
  dsimp only at read
  split at read
  · assumption
  · cases read

/-- A step that names an attribute lies in the subplan of the return step that is read. -/
theorem exists_parent_of_retrieve (areEntities : findings.AreEntities plan)
    (literal : plan.namesByReference step = false) (retrieval : step.operation = .retrieveAttribute)
    {target name : StepRef} (written : step.arguments = [.reference target, .reference name])
    (read : draft.retrieve plan built findings subplan step = .ok (found, after)) :
    ∃ parent ∈ plan.subplans, parent.root = target ∧ parent.has name = true := by
  have noEntity := areEntities.get?_eq_none literal retrieval written
  unfold retrieve at read
  simp only [written, noEntity] at read
  split at read
  · cases read
  · obtain ⟨parent, isParent, read⟩ := bind_eq_ok_iff.mp read
    obtain ⟨listed, isRoot⟩ := mem_subplans_of_parentOf isParent
    split at read
    · cases read
    · obtain ⟨column, isRead, -⟩ := bind_eq_ok_iff.mp read
      exact ⟨parent, listed, isRoot, has_of_columnRead isRead⟩

end Draft

namespace Plan.IsArranged

variable {plan : Plan} {drafts : List Draft} {subplan : Subplan} {step : Step} {target : StepRef}

/-- Every step of a plan that is drafted was visited, with entities found by retrievals of entities
only. -/
theorem exists_visits (arranged : plan.IsArranged) (drafted : plan.drafts = .ok drafts)
    (member : step ∈ plan.steps) :
    ∃ subplan built findings draft after result, findings.AreEntities plan ∧
      Draft.Visits plan built subplan findings draft step after result := by
  obtain ⟨subplan, ⟨listed, holds⟩, -⟩ := arranged.decomposed.onePlace step member
  obtain ⟨last, run, -⟩ := map_eq_ok_iff.mp drafted
  have start : Findings.AreEntities plan {} := nofun
  obtain ⟨state, next, areEntities, built⟩ := exists_of_mem_foldlM
    (fun state : Findings × List Draft => state.1.AreEntities plan)
    (fun state subplan _ after => Draft.areEntities_buildNext)
    start run listed
  obtain ⟨finished, visited, -⟩ := bind_eq_ok_iff.mp built
  obtain ⟨current, after, areEntities, visited⟩ := exists_of_mem_foldlM
    (fun current : Findings × Draft => current.1.AreEntities plan)
    (fun current reference _ after => Draft.areEntities_visitRef) areEntities visited
    (arranged.mem_stepsOf listed holds)
  obtain ⟨found, isFound, visits⟩ := Draft.exists_visits_of_visitRef visited
  rw [arranged.step?_reference member] at isFound
  cases isFound
  exact ⟨subplan, _, _, _, _, _, areEntities, visits⟩

/-- The steps of a subplan come no later than its root. -/
theorem idxOf_le_of_has (arranged : plan.IsArranged) (listed : subplan ∈ plan.subplans)
    (rootListed : subplan.root ∈ plan.order) (holds : subplan.has target = true) :
    plan.order.idxOf target ≤ plan.order.idxOf subplan.root := by
  rcases (arranged.decomposed.has_iff subplan listed target).mp holds with rfl | path
  · exact Nat.le_refl _
  · exact Nat.le_of_lt (arranged.isOrder.parentsFirst.idxOf_lt_of_transGen arranged.nodup_order
      path.transGen rootListed)

theorem idxOf_lt_of_reads (arranged : plan.IsArranged) (member : step ∈ plan.steps)
    (reads : target ∈ step.dependencies) :
    target ∈ plan.order ∧ plan.order.idxOf target < plan.order.idxOf step.reference :=
  arranged.isOrder.parentsFirst.idxOf_lt arranged.nodup_order
    (arranged.edge step member target reads) (arranged.mem_order member)

/-- A step by which a retrieval names an attribute comes earlier, although the retrieval does not depend
on it: it lies in the subplan of the return step that is read. -/
theorem idxOf_lt_of_named (arranged : plan.IsArranged) (drafted : plan.drafts = .ok drafts)
    (member : step ∈ plan.steps) (literal : plan.namesByReference step = false)
    (retrieval : step.operation = .retrieveAttribute) {source : StepRef}
    (written : step.arguments = [.reference source, .reference target]) :
    target ∈ plan.order ∧ plan.order.idxOf target < plan.order.idxOf step.reference := by
  obtain ⟨subplan, built, findings, draft, after, result, areEntities, visits⟩ :=
    arranged.exists_visits drafted member
  obtain ⟨found, read⟩ := visits.exists_retrieve retrieval
  obtain ⟨parent, listed, rfl, holds⟩ :=
    Draft.exists_parent_of_retrieve areEntities literal retrieval written read
  have reads : parent.root ∈ step.dependencies := by
    simp [Step.dependencies, retrieval, written, Argument.reference?]
  obtain ⟨rootListed, rootEarlier⟩ := arranged.idxOf_lt_of_reads member reads
  have noLater := arranged.idxOf_le_of_has listed rootListed holds
  exact ⟨arranged.isOrder.perm.mem_iff.mpr (arranged.mem_nodes_of_has listed holds),
    Nat.lt_of_le_of_lt noLater rootEarlier⟩

/-- All references of the steps of a plan that is drafted lead to earlier steps, if no attribute of an
entity is named by a reference. -/
theorem idxOf_lt_of_mem_references (arranged : plan.IsArranged) (drafted : plan.drafts = .ok drafts)
    (member : step ∈ plan.steps) (literal : plan.namesByReference step = false)
    (listed : target ∈ step.references) :
    target ∈ plan.order ∧ plan.order.idxOf target < plan.order.idxOf step.reference := by
  by_cases retrieval : step.operation = .retrieveAttribute
  · obtain ⟨source, name, written⟩ := (arranged.forms step member).exists_retrieval retrieval
    have dependencies : step.dependencies = [source] := by
      simp [Step.dependencies, retrieval, written, Argument.reference?]
    rw [Step.references, written] at listed
    cases name with
    | literal value =>
        have isSource : target = source := by simpa [Argument.reference?] using listed
        exact arranged.idxOf_lt_of_reads member (by simp [dependencies, isSource])
    | reference name =>
        have either : target = source ∨ target = name := by
          simpa [Argument.reference?] using listed
        rcases either with isSource | rfl
        · exact arranged.idxOf_lt_of_reads member (by simp [dependencies, isSource])
        · exact arranged.idxOf_lt_of_named drafted member literal retrieval written
  · rw [← Step.dependencies_eq_references retrieval] at listed
    exact arranged.idxOf_lt_of_reads member listed

end Plan.IsArranged

/-! ## Descriptions without a bound -/

namespace Plan

variable {plan : Plan} {first second : Argument → String} {step : Step}

theorem describeKeys_congr {arguments : List Argument} (same : ∀ a ∈ arguments, first a = second a) :
    describeKeys first arguments = describeKeys second arguments := by
  induction arguments using describeKeys.induct with
  | case1 => rfl
  | case2 key => rw [describeKeys, describeKeys, same key List.mem_cons_self]
  | case3 key direction rest ih =>
      have others : ∀ a ∈ rest, first a = second a := fun a member =>
        same a (List.mem_cons_of_mem _ (List.mem_cons_of_mem _ member))
      rw [describeKeys, describeKeys, same key List.mem_cons_self, ih others]

theorem describeAnalysis_congr {values groupings : List Argument} (template : Template)
    (sameValues : ∀ a ∈ values, first a = second a)
    (sameGroupings : ∀ a ∈ groupings, first a = second a) :
    describeAnalysis template first values groupings =
      describeAnalysis template second values groupings := by
  have described : values.map first = values.map second := List.map_congr_left sameValues
  have target : values.head?.map first = values.head?.map second := by
    rw [← List.head?_map, described, List.head?_map]
  have grouped : (groupings.map fun grouping => " " ++ first grouping) =
      groupings.map fun grouping => " " ++ second grouping :=
    List.map_congr_left fun grouping member => by rw [sameGroupings grouping member]
  rw [describeAnalysis, describeAnalysis, described, target, grouped]

/-- A description of a step depends on those of its arguments only. -/
theorem describeWith_congr (same : ∀ a ∈ step.arguments, first a = second a) :
    plan.describeWith first step = plan.describeWith second step := by
  have described : step.arguments.map first = step.arguments.map second :=
    List.map_congr_left same
  have filtered (holds : Argument → Bool) : ∀ a ∈ step.arguments.filter holds, first a = second a :=
    fun a member => same a (List.mem_of_mem_filter member)
  have analysed := describeAnalysis_congr step.operation.descriptor.template
    (filtered fun a => !plan.isGrouping a) (filtered plan.isGrouping)
  simp only [describeWith, described, describeKeys_congr same, analysed]

/-- One step of a description: an argument is described in terms of those of the step that it refers
to. -/
def describeOnce (plan : Plan) (describe : Argument → String) : Argument → String
  | .literal value => value.content
  | .reference target =>
      match plan.step? target with
      | none => target.text
      | some step =>
          match step.operation with
          | .output | .collect => (step.arguments.head?.map describe).getD ""
          | _ => plan.describeWith describe step

theorem describeOnce_congr {target : StepRef} (found : plan.step? target = some step)
    (same : ∀ a ∈ step.arguments, first a = second a) :
    plan.describeOnce first (.reference target) = plan.describeOnce second (.reference target) := by
  have head : step.arguments.head?.map first = step.arguments.head?.map second := by
    rw [← List.head?_map, List.map_congr_left same, List.head?_map]
  simp only [describeOnce, found, head, describeWith_congr same]

/-- Descriptions that go one step further for each step of a bound. -/
structure Unfolds (plan : Plan) (describe : Nat → Argument → String) : Prop where
  literal : ∀ bound value, describe bound (.literal value) = value.content
  succ : ∀ bound, describe (bound + 1) = plan.describeOnce (describe bound)

theorem describeArgument_succ (plan : Plan) (bound : Nat) :
    plan.describeArgument (bound + 1) = plan.describeOnce (plan.describeArgument bound) := by
  funext a
  cases a <;> rfl

theorem unfolds_describeArgument (plan : Plan) (extra : Nat) :
    plan.Unfolds fun bound => plan.describeArgument (bound + extra) where
  literal := by
    intro bound value
    cases bound + extra <;> rfl
  succ := by
    intro bound
    rw [Nat.add_right_comm]
    exact plan.describeArgument_succ _

theorem unfolds_const (fixed : plan.describeOnce first = first) : plan.Unfolds fun _ => first where
  literal := fun _ value => by
    rw [← fixed]
    rfl
  succ := fun _ => fixed.symm

def Follows (plan : Plan) (step other : Step) : Prop :=
  ∃ target ∈ step.references, plan.step? target = some other

def IsDescending (plan : Plan) : Prop :=
  ∀ step ∈ plan.steps, ∀ target ∈ step.references,
    target ∈ plan.order ∧ plan.order.idxOf target < plan.order.idxOf step.reference

namespace Unfolds

variable {left right : Nat → Argument → String}

/-- What is referred to in turn comes ever earlier, so two descriptions with the same steps agree as
soon as the bound exceeds the position of a step. -/
theorem eq_of_idxOf_lt (unfolds : plan.Unfolds left) (others : plan.Unfolds right)
    (arranged : plan.IsArranged) (descending : plan.IsDescending) {bound : Nat} {target : StepRef}
    (listed : target ∈ plan.order) (less : plan.order.idxOf target < bound) :
    left bound (.reference target) = right bound (.reference target) := by
  induction bound generalizing target with
  | zero => cases less
  | succ bound ih =>
      obtain ⟨step, found⟩ := arranged.exists_step_of_node (arranged.isOrder.perm.mem_iff.mp listed)
      obtain rfl := Plan.reference_of_step? found
      rw [unfolds.succ, others.succ]
      refine describeOnce_congr found fun a member => ?_
      cases a with
      | literal value => rw [unfolds.literal, others.literal]
      | reference inner =>
          have isReference : inner ∈ step.references :=
            List.mem_filterMap.mpr ⟨_, member, rfl⟩
          obtain ⟨innerListed, earlier⟩ :=
            descending step (List.mem_of_find?_eq_some found) inner isReference
          exact ih innerListed (Nat.lt_of_lt_of_le earlier (Nat.le_of_lt_succ less))

/-- A bound by the number of steps reaches all arguments. -/
theorem eq_of_length_le (unfolds : plan.Unfolds left) (others : plan.Unfolds right)
    (arranged : plan.IsArranged) (descending : plan.IsDescending) (nonempty : plan.steps ≠ [])
    {bound : Nat} (enough : plan.steps.length ≤ bound) : left bound = right bound := by
  funext a
  cases a with
  | literal value => rw [unfolds.literal, others.literal]
  | reference target =>
      have length : plan.order.length = plan.steps.length := by
        rw [arranged.isOrder.perm.length_eq, arranged.nodes, List.length_map]
      by_cases listed : target ∈ plan.order
      · exact unfolds.eq_of_idxOf_lt others arranged descending listed
          (Nat.lt_of_lt_of_le (List.idxOf_lt_length_of_mem listed) (length ▸ enough))
      · have missing : plan.step? target = none := by
          cases found : plan.step? target with
          | none => rfl
          | some step =>
              obtain rfl := Plan.reference_of_step? found
              exact absurd (arranged.mem_order (List.mem_of_find?_eq_some found)) listed
        obtain ⟨bound, rfl⟩ := Nat.exists_eq_add_one.mpr
          (Nat.lt_of_lt_of_le (List.length_pos_iff.mpr nonempty) enough)
        rw [unfolds.succ, others.succ]
        simp only [describeOnce, missing]

end Unfolds

structure DescriptionsEnd (plan : Plan) : Prop where
  /-- A description goes on to steps that come strictly earlier. -/
  earlier : ∀ step ∈ plan.steps, ∀ other, plan.Follows step other →
    plan.order.idxOf other.reference < plan.order.idxOf step.reference
  accessible : ∀ step ∈ plan.steps, Acc (fun other step => plan.Follows step other) step
  /-- The equations of the description have one solution, without any bound. -/
  unique : ∃! describe, plan.describeOnce describe = describe
  /-- A bound by the number of steps changes nothing. -/
  unbounded : ∀ describe, plan.describeOnce describe = describe →
    (∀ bound, plan.steps.length ≤ bound → plan.describeArgument bound = describe) ∧
      ∀ step, plan.describeStep step = plan.describeWith describe step

theorem IsDescending.earlier (descending : plan.IsDescending) (member : step ∈ plan.steps)
    {other : Step} (follows : plan.Follows step other) :
    plan.order.idxOf other.reference < plan.order.idxOf step.reference := by
  obtain ⟨target, listed, found⟩ := follows
  obtain rfl := Plan.reference_of_step? found
  exact (descending step member _ listed).2

theorem IsDescending.accessible (descending : plan.IsDescending) (member : step ∈ plan.steps) :
    Acc (fun other step => plan.Follows step other) step := by
  induction position : plan.order.idxOf step.reference using Nat.strongRecOn generalizing step with
  | _ position ih =>
      refine .intro step fun other follows => ?_
      have isStep : other ∈ plan.steps := by
        obtain ⟨_, -, found⟩ := follows
        exact List.mem_of_find?_eq_some found
      exact ih _ (position ▸ descending.earlier member follows) isStep rfl

theorem IsDescending.descriptionsEnd (descending : plan.IsDescending) (arranged : plan.IsArranged)
    (nonempty : plan.steps ≠ []) : plan.DescriptionsEnd := by
  have bounded : ∀ describe, plan.describeOnce describe = describe → ∀ bound,
      plan.steps.length ≤ bound → plan.describeArgument bound = describe := fun describe fixed bound =>
    (plan.unfolds_describeArgument 0).eq_of_length_le (unfolds_const fixed) arranged descending
      nonempty
  have fixed : plan.describeOnce (plan.describeArgument plan.steps.length) =
      plan.describeArgument plan.steps.length := by
    rw [← describeArgument_succ]
    exact (plan.unfolds_describeArgument 1).eq_of_length_le (plan.unfolds_describeArgument 0) arranged
      descending nonempty (Nat.le_refl _)
  refine ⟨fun step member other => descending.earlier member,
    fun step member => descending.accessible member, ⟨_, fixed, ?_⟩, ?_⟩
  · exact fun describe isFixed => (bounded describe isFixed _ (Nat.le_refl _)).symm
  · intro describe isFixed
    refine ⟨bounded describe isFixed, fun step => ?_⟩
    rw [describeStep, bounded describe isFixed _ (Nat.le_refl _)]

/-- Every step of a plan that can be read and drafted is described, without a bound on the references
that are followed, as long as no attribute of an entity is named by a reference. -/
theorem descriptionsEnd_of_drafts {raw : Entries String String} {plan : Plan}
    (parsed : parse raw = .ok plan) {drafts : List Draft} (drafted : plan.drafts = .ok drafts)
    (literals : ∀ step ∈ plan.steps, plan.namesByReference step = false) : plan.DescriptionsEnd := by
  have arranged := isArranged_of_parse parsed
  have descending : plan.IsDescending := fun step member target listed =>
    arranged.idxOf_lt_of_mem_references drafted member (literals step member) listed
  obtain ⟨steps, -, -, formed⟩ := parse_eq_ok_iff.mp parsed
  have isFormed := isFormed_of_ofSteps formed
  exact descending.descriptionsEnd arranged (isFormed.steps_eq ▸ isFormed.nonempty)

/-- The step `|9|` of this plan names an attribute by a step that it does not depend on, and its
description goes on to that step. -/
theorem descriptionsEnd_of_drafts_highTeams :
    ∃ plan drafts, parse highTeams = .ok plan ∧ plan.drafts = .ok drafts ∧
      (∃ step ∈ plan.steps, step.text = "(retrieve_attribute |7| |5|)" ∧
        step.dependencies = [⟨"7", rfl⟩] ∧ plan.describeStep step =
          "average of salary of Employee grouped by team of Employee of team of Employee") ∧
      plan.DescriptionsEnd := by
  have runs : (parse highTeams >>= fun plan => plan.drafts.map fun _ =>
      decide ((∀ step ∈ plan.steps, plan.namesByReference step = false) ∧
        ∃ step ∈ plan.steps, step.text = "(retrieve_attribute |7| |5|)" ∧
          step.dependencies = [⟨"7", rfl⟩] ∧ plan.describeStep step =
            "average of salary of Employee grouped by team of Employee of team of Employee")) =
        .ok true := by
    decide +kernel
  obtain ⟨plan, parsed, runs⟩ := bind_eq_ok_iff.mp runs
  obtain ⟨drafts, drafted, tested⟩ := map_eq_ok_iff.mp runs
  obtain ⟨literals, described⟩ := of_decide_eq_true tested
  exact ⟨plan, drafts, parsed, drafted, described, descriptionsEnd_of_drafts parsed drafted literals⟩

end Plan

end SemanticQuery
