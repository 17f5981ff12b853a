import SemanticQuery.Proofs.Plan.Roots
import SemanticQuery.Proofs.Step.Canonical

/-!
# The subplans that are discovered

From a return step of a graph without cycles, the subplans that are discovered are the regions of
the return steps nested in it: one for each of them, inner ones first and its own last.  Leaving
out repetitions by their members leaves out repetitions of roots.
-/

namespace SemanticQuery.Subplan

variable {graph : PlanGraph} {isOutput : StepRef → Bool}

/-- A subplan of the region of a return step: it holds what the search finds, which is what belongs
with its root. -/
structure IsRegion (graph : PlanGraph) (isOutput : StepRef → Bool) (subplan : Subplan) : Prop where
  output : isOutput subplan.root = true
  members_eq : subplan.members =
    sortedSet StepRef.text (regionOf graph isOutput subplan.root).members
  mem_members_iff : ∀ {step : StepRef},
    step ∈ subplan.members ↔ InRegion graph isOutput subplan.root step

theorem isRegion_of_members_eq (sound : graph.IsSound) {subplan : Subplan}
    (output : isOutput subplan.root = true)
    (members_eq : subplan.members =
      sortedSet StepRef.text (regionOf graph isOutput subplan.root).members) :
    IsRegion graph isOutput subplan := by
  refine ⟨output, members_eq, ?_⟩
  intro step
  rw [members_eq, mem_sortedSet fun _ _ => StepRef.text_injective, mem_members_regionOf_iff sound]

namespace IsRegion

variable {subplan other : Subplan}

theorem has_iff (region : IsRegion graph isOutput subplan) {step : StepRef} :
    subplan.has step = true ↔ InRegion graph isOutput subplan.root step := by
  rw [has, decide_eq_true_eq, region.mem_members_iff]

/-- The root is the only return step of a region, so equal regions have equal roots. -/
theorem root_eq_of_members_eq (region : IsRegion graph isOutput subplan)
    (otherRegion : IsRegion graph isOutput other) (same : other.members = subplan.members) :
    other.root = subplan.root := by
  have member : other.root ∈ subplan.members := same ▸ otherRegion.mem_members_iff.mpr (.inl rfl)
  rcases region.mem_members_iff.mp member with root | path
  · exact root
  · have output := otherRegion.output
    rw [path.isOutput_eq_false] at output
    cases output

theorem members_eq_of_root_eq (region : IsRegion graph isOutput subplan)
    (otherRegion : IsRegion graph isOutput other) (same : other.root = subplan.root) :
    other.members = subplan.members := by
  rw [region.members_eq, otherRegion.members_eq, same]

end IsRegion

/-! ## Leaving out repetitions -/

/-- What is kept of the subplans that were found: one for each root, in the order of discovery. -/
structure IsKept (graph : PlanGraph) (isOutput : StepRef → Bool) (found kept : List Subplan) :
    Prop where
  sublist : kept.Sublist found
  covers : ∀ root, root ∈ found.map (·.root) → root ∈ kept.map (·.root)
  distinct : (kept.map (·.root)).Nodup
  inwardFirst : InwardFirst graph isOutput (found.map (·.root)) →
    InwardFirst graph isOutput (kept.map (·.root))

/-- A subplan is left out exactly when its root is there. -/
theorem addDistinct_eq {kept : List Subplan} {subplan : Subplan}
    (regions : ∀ other ∈ kept, IsRegion graph isOutput other)
    (region : IsRegion graph isOutput subplan) :
    addDistinct kept subplan =
      if subplan.root ∈ kept.map (·.root) then kept else kept ++ [subplan] := by
  have agree : (kept.any fun other => other.members = subplan.members) = true ↔
      subplan.root ∈ kept.map (·.root) := by
    simp only [List.any_eq_true, decide_eq_true_eq, List.mem_map]
    constructor
    · rintro ⟨other, member, same⟩
      exact ⟨other, member, region.root_eq_of_members_eq (regions other member) same⟩
    · rintro ⟨other, member, same⟩
      exact ⟨other, member, region.members_eq_of_root_eq (regions other member) same⟩
  unfold addDistinct
  simp only [agree]

theorem IsKept.add {found kept : List Subplan} {subplan : Subplan}
    (isKept : IsKept graph isOutput found kept)
    (regions : ∀ other ∈ found, IsRegion graph isOutput other)
    (region : IsRegion graph isOutput subplan) :
    IsKept graph isOutput (found ++ [subplan]) (addDistinct kept subplan) := by
  rw [addDistinct_eq (fun other member => regions other (isKept.sublist.subset member)) region]
  split
  · rename_i known
    refine ⟨isKept.sublist.trans (List.sublist_append_left _ _), ?_, isKept.distinct, ?_⟩
    · intro root member
      rw [List.map_append, List.mem_append] at member
      rcases member with earlier | last
      · exact isKept.covers root earlier
      · rw [List.map_singleton, List.mem_singleton] at last
        exact last ▸ known
    · intro ordered
      rw [List.map_append] at ordered
      exact isKept.inwardFirst ordered.left
  · rename_i unknown
    refine ⟨isKept.sublist.append (List.Sublist.refl _), ?_, ?_, ?_⟩
    · intro root member
      rw [List.map_append, List.mem_append] at member ⊢
      exact member.imp_left (isKept.covers root)
    · rw [List.map_append, List.map_singleton, List.nodup_append]
      refine ⟨isKept.distinct, List.nodup_singleton _, ?_⟩
      intro root member other last same
      rw [List.mem_singleton] at last
      exact unknown (last ▸ same ▸ member)
    · intro ordered
      rw [List.map_append, List.map_singleton, InwardFirst.concat_iff] at ordered ⊢
      exact ⟨isKept.inwardFirst ordered.1,
        fun step nested => isKept.covers step (ordered.2 step nested)⟩

/-- A subplan that is found last and whose root is found once is kept last. -/
theorem IsKept.exists_eq_concat {front kept : List Subplan} {final : Subplan}
    (isKept : IsKept graph isOutput (front ++ [final]) kept)
    (once : final.root ∉ front.map (·.root)) : ∃ before, kept = before ++ [final] := by
  have covered : final.root ∈ kept.map (·.root) := isKept.covers _ (by simp)
  obtain ⟨before, rest, rfl, beforeSublist, restSublist⟩ :=
    List.sublist_append_iff.mp isKept.sublist
  rcases List.sublist_singleton.mp restSublist with rfl | rfl
  · rw [List.append_nil] at covered
    exact absurd ((beforeSublist.map _).subset covered) once
  · exact ⟨before, rfl⟩

theorem isKept_foldl_addDistinct {found : List Subplan}
    (regions : ∀ subplan ∈ found, IsRegion graph isOutput subplan) :
    IsKept graph isOutput found (found.foldl addDistinct []) := by
  induction found using List.reverseRecOn with
  | nil => exact ⟨List.Sublist.refl _, by simp, by simp, fun _ => .nil⟩
  | append_singleton before subplan ih =>
      have earlier : ∀ other ∈ before, IsRegion graph isOutput other :=
        fun other member => regions other (List.mem_append_left _ member)
      have last := regions subplan (List.mem_append_right _ (List.mem_singleton_self _))
      rw [List.foldl_append, List.foldl_cons, List.foldl_nil]
      exact (ih earlier).add earlier last

/-! ## Discovery -/

def numbered (entries : List (StepRef × List StepRef)) : List Subplan :=
  entries.zipIdx.map fun item => { id := ⟨item.2⟩, root := item.1.1, members := item.1.2 }

theorem map_root_numbered (entries : List (StepRef × List StepRef)) :
    (numbered entries).map (·.root) = entries.map (·.1) := by
  have firsts := List.zipIdx_map_fst 0 entries
  calc (numbered entries).map (·.root)
      = (entries.zipIdx.map Prod.fst).map (·.1) := by
        rw [numbered, List.map_map, List.map_map]
        rfl
    _ = entries.map (·.1) := by rw [firsts]

theorem pairwise_id_numbered (entries : List (StepRef × List StepRef)) :
    (numbered entries).Pairwise fun first second => first.id.number < second.id.number := by
  have increasing : (entries.zipIdx.map Prod.snd).Pairwise (· < ·) := by
    rw [List.zipIdx_map_snd]
    exact List.pairwise_lt_range'
  rw [numbered, List.pairwise_map]
  exact List.pairwise_map.mp increasing

/-- What is discovered from a terminal step: the regions of the return steps nested in it. -/
structure IsDiscovered (graph : PlanGraph) (isOutput : StepRef → Bool) (terminal : StepRef)
    (subplans : List Subplan) : Prop where
  regions : ∀ subplan ∈ subplans, IsRegion graph isOutput subplan
  nested : ∀ root, root ∈ subplans.map (·.root) ↔ IsNested graph isOutput root terminal
  distinct : (subplans.map (·.root)).Nodup
  increasing : subplans.Pairwise fun first second => first.id.number < second.id.number
  inwardFirst : InwardFirst graph isOutput (subplans.map (·.root))
  last : ∃ front final, subplans = front ++ [final] ∧ final.root = terminal

theorem isDiscovered_discover (sound : graph.IsSound) (acyclic : graph.IsAcyclic)
    {terminal : StepRef} (member : terminal ∈ graph.nodes) (output : isOutput terminal = true) :
    IsDiscovered graph isOutput terminal (discover graph isOutput terminal) := by
  have enough := nestingRank_lt_length acyclic member
  generalize bounded : graph.nodes.length = bound at enough
  let found := numbered (roots graph isOutput bound terminal)
  have discovered : discover graph isOutput terminal = found.foldl addDistinct [] := by
    simp only [discover, bounded, found, numbered]
  have names : found.map (·.root) = rootNames graph isOutput bound terminal :=
    map_root_numbered _
  have isNested {root : StepRef} :
      root ∈ found.map (·.root) ↔ IsNested graph isOutput root terminal := by
    rw [names]
    exact ⟨isNested_of_mem_rootNames sound, mem_rootNames_of_isNested sound acyclic enough⟩
  have regions : ∀ subplan ∈ found, IsRegion graph isOutput subplan := by
    intro subplan subplanMember
    have nested := isNested.mp (List.mem_map_of_mem subplanMember)
    refine isRegion_of_members_eq sound (nested.isOutput_eq_true output) ?_
    obtain ⟨item, itemMember, rfl⟩ := List.mem_map.mp subplanMember
    have entryMember : item.1 ∈ roots graph isOutput bound terminal :=
      List.fst_mem_of_mem_zipIdx itemMember
    exact members_of_mem_roots entryMember
  have isKept := isKept_foldl_addDistinct regions
  have walkEnd : ∃ front, rootNames graph isOutput bound terminal = front ++ [terminal] ∧
      terminal ∉ front :=
    exists_rootNames_eq_concat sound acyclic (Nat.zero_lt_of_lt enough) terminal
  have ordered : InwardFirst graph isOutput (found.map (·.root)) :=
    names ▸ inwardFirst_rootNames sound acyclic enough
  rw [discovered]
  refine ⟨fun subplan kept => regions subplan (isKept.sublist.subset kept), ?_, isKept.distinct,
    (pairwise_id_numbered _).sublist isKept.sublist, isKept.inwardFirst ordered, ?_⟩
  · intro root
    rw [← isNested]
    exact ⟨fun kept => (isKept.sublist.map _).subset kept, isKept.covers root⟩
  · obtain ⟨front, whole, once⟩ := walkEnd
    rw [← names] at whole
    obtain ⟨before, rest, same, rfl, final⟩ := List.map_eq_append_iff.mp whole
    obtain ⟨last, rfl, root⟩ := List.map_eq_singleton_iff.mp final
    rw [same] at isKept
    obtain ⟨kept, whole⟩ := isKept.exists_eq_concat (root ▸ once)
    exact ⟨kept, last, same ▸ whole, root⟩

end SemanticQuery.Subplan
