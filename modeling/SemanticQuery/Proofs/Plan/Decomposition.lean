import SemanticQuery.Proofs.Outcome
import SemanticQuery.Proofs.Plan.Discovery

/-!
# The decomposition into subplans

A graph without cycles that ends in one return step is split into the regions of its return steps.
The split is refused exactly when some step leads to two return steps; otherwise every step belongs
to one subplan, and every subplan comes after those that it reads.
-/

namespace SemanticQuery.Subplan

variable {graph : PlanGraph} {steps : List Step} {terminal : StepRef}

/-! ## Return steps by reference -/

theorem find?_reference_eq_some (distinct : (steps.map (·.reference)).Nodup) {step : Step}
    (member : step ∈ steps) :
    (steps.find? fun other => other.reference = step.reference) = some step := by
  induction steps with
  | nil => cases member
  | cons first rest ih =>
      rw [List.map_cons, List.nodup_cons] at distinct
      rcases List.mem_cons.mp member with rfl | later
      · simp
      · have other : first.reference ≠ step.reference := by
          intro same
          exact distinct.1 (same ▸ List.mem_map_of_mem later)
        rw [List.find?_cons_of_neg (by simpa using other)]
        exact ih distinct.2 later

theorem isOutputIn_reference (distinct : (steps.map (·.reference)).Nodup) {step : Step}
    (member : step ∈ steps) : isOutputIn steps step.reference = step.isOutput := by
  rw [isOutputIn, find?_reference_eq_some distinct member]
  rfl

theorem isOutputIn_eq_true_iff (distinct : (steps.map (·.reference)).Nodup)
    {reference : StepRef} :
    isOutputIn steps reference = true ↔
      ∃ step ∈ steps, step.reference = reference ∧ step.isOutput = true := by
  constructor
  · intro output
    obtain ⟨step, found, isOutput⟩ := (Option.any_eq_true _ _).mp output
    have same := List.find?_some found
    rw [decide_eq_true_eq] at same
    exact ⟨step, List.mem_of_find?_eq_some found, same, isOutput⟩
  · rintro ⟨step, member, rfl, isOutput⟩
    rw [isOutputIn_reference distinct member, isOutput]

/-! ## Places -/

/-- No step leads to two return steps. -/
def IsUnshared (graph : PlanGraph) (steps : List Step) : Prop :=
  ∀ step ∈ steps, ∀ first second,
    isOutputIn steps first = true → isOutputIn steps second = true →
    LeadsTo graph (isOutputIn steps) step.reference first →
    LeadsTo graph (isOutputIn steps) step.reference second → first = second

def HasOnePlace (subplans : List Subplan) (step : StepRef) : Prop :=
  ∃! subplan, subplan ∈ subplans ∧ subplan.has step = true

theorem hasOnePlace_iff_length_le {subplans : List Subplan} (distinct : subplans.Nodup)
    {step : StepRef} (placed : ∃ subplan ∈ subplans, subplan.has step = true) :
    HasOnePlace subplans step ↔ (subplans.filter fun subplan => subplan.has step).length ≤ 1 := by
  have owners := distinct.filter fun subplan => subplan.has step
  obtain ⟨owner, member, holds⟩ := placed
  have isOwner (subplan : Subplan) :
      subplan ∈ subplans.filter (fun subplan => subplan.has step) ↔
        subplan ∈ subplans ∧ subplan.has step = true := List.mem_filter
  have first := (isOwner owner).mpr ⟨member, holds⟩
  unfold HasOnePlace
  simp only [← isOwner]
  generalize subplans.filter (fun subplan => subplan.has step) = listed at owners first ⊢
  match listed with
  | [] => cases first
  | [only] => exact ⟨fun _ => by simp, fun _ => ⟨only, by simp, by simp⟩⟩
  | one :: two :: rest =>
      constructor
      · intro unique
        have same : one = two := unique.unique (by simp) (by simp)
        simp [same] at owners
      · intro short
        simp at short

/-- A step with a place is refused exactly when it is no return step and has several. -/
theorem placeProblem?_eq {subplans : List Subplan} (distinct : subplans.Nodup) {step : Step}
    (placed : ∃ subplan ∈ subplans, subplan.has step.reference = true)
    (outputOnce : step.isOutput = true → HasOnePlace subplans step.reference) :
    HasOnePlace subplans step.reference ∧ placeProblem? subplans step = none ∨
      ¬ HasOnePlace subplans step.reference ∧ step.isOutput = false ∧
        placeProblem? subplans step = some (.sharedStep step.reference.text
          ((subplans.filter fun subplan => subplan.has step.reference).map (·.id.text))) := by
  have counted := hasOnePlace_iff_length_le distinct placed
  have someOwner : (subplans.filter fun subplan => subplan.has step.reference).isEmpty = false := by
    simpa using placed
  by_cases onePlace : HasOnePlace subplans step.reference
  · refine .inl ⟨onePlace, ?_⟩
    simp [placeProblem?, someOwner, Nat.not_lt_of_le (counted.mp onePlace)]
  · have inside : step.isOutput = false := by
      rw [← Bool.not_eq_true]
      exact fun output => onePlace (outputOnce output)
    rw [counted, Nat.not_le] at onePlace
    refine .inr ⟨by rwa [counted, Nat.not_le], inside, ?_⟩
    simp only [placeProblem?, someOwner, onePlace, inside]
    rfl

/-! ## Regions of a whole graph -/

/-- What is supposed of a graph of steps: it has no cycles, and all its steps lead to one return
step. -/
structure IsRooted (graph : PlanGraph) (steps : List Step) (terminal : StepRef) : Prop where
  sound : graph.IsSound
  acyclic : graph.IsAcyclic
  distinct : (steps.map (·.reference)).Nodup
  member : terminal ∈ graph.nodes
  output : isOutputIn steps terminal = true
  leads : ∀ step ∈ steps, Relation.ReflTransGen graph.Edge step.reference terminal

theorem isRooted_of_sinks (distinct : (steps.map (·.reference)).Nodup)
    (formed : PlanGraph.ofSteps steps = .ok graph) (acyclic : graph.IsAcyclic)
    (single : graph.sinks = [terminal]) (output : isOutputIn steps terminal = true) :
    IsRooted graph steps terminal := by
  have sound := PlanGraph.isSound_of_ofSteps distinct formed
  have isSink : terminal ∈ graph.sinks := single ▸ List.mem_singleton_self terminal
  exact ⟨sound, acyclic, distinct, (sound.mem_sinks_iff.mp isSink).1, output,
    PlanGraph.leads_of_sinks distinct formed acyclic single⟩

namespace IsRooted

variable {subplans : List Subplan}

theorem exists_region (rooted : IsRooted graph steps terminal) {step : Step}
    (member : step ∈ steps) :
    ∃ root, IsNested graph (isOutputIn steps) root terminal ∧
      InRegion graph (isOutputIn steps) root step.reference :=
  exists_inRegion rooted.acyclic (rooted.leads step member)

/-- All return steps are nested in the terminal one. -/
theorem isNested_iff (rooted : IsRooted graph steps terminal) {reference : StepRef} :
    IsNested graph (isOutputIn steps) reference terminal ↔ isOutputIn steps reference = true := by
  constructor
  · intro nested
    exact nested.isOutput_eq_true rooted.output
  · intro output
    obtain ⟨step, member, rfl, -⟩ := (isOutputIn_eq_true_iff rooted.distinct).mp output
    obtain ⟨root, nested, same | path⟩ := rooted.exists_region member
    · exact same ▸ nested
    · rw [path.isOutput_eq_false] at output
      cases output

theorem exists_place (rooted : IsRooted graph steps terminal)
    (found : IsDiscovered graph (isOutputIn steps) terminal subplans) {step : Step}
    (member : step ∈ steps) : ∃ subplan ∈ subplans, subplan.has step.reference = true := by
  obtain ⟨root, nested, inRegion⟩ := rooted.exists_region member
  obtain ⟨subplan, listed, rfl⟩ := List.mem_map.mp ((found.nested root).mpr nested)
  exact ⟨subplan, listed, (found.regions subplan listed).has_iff.mpr inRegion⟩

/-- A step has one place exactly when it leads to one return step at most. -/
theorem hasOnePlace_iff (rooted : IsRooted graph steps terminal)
    (found : IsDiscovered graph (isOutputIn steps) terminal subplans) {step : Step}
    (member : step ∈ steps) :
    HasOnePlace subplans step.reference ↔
      ∀ first second, isOutputIn steps first = true → isOutputIn steps second = true →
        LeadsTo graph (isOutputIn steps) step.reference first →
        LeadsTo graph (isOutputIn steps) step.reference second → first = second := by
  constructor
  · intro onePlace first second firstOutput secondOutput toFirst toSecond
    have place {root : StepRef} (output : isOutputIn steps root = true)
        (path : LeadsTo graph (isOutputIn steps) step.reference root) :
        ∃ subplan, (subplan ∈ subplans ∧ subplan.has step.reference = true) ∧
          subplan.root = root := by
      obtain ⟨subplan, listed, rfl⟩ :=
        List.mem_map.mp ((found.nested root).mpr (rooted.isNested_iff.mpr output))
      exact ⟨subplan, ⟨listed, (found.regions subplan listed).has_iff.mpr (.inr path)⟩, rfl⟩
    obtain ⟨one, oneOwns, rfl⟩ := place firstOutput toFirst
    obtain ⟨two, twoOwns, rfl⟩ := place secondOutput toSecond
    rw [onePlace.unique oneOwns twoOwns]
  · intro unshared
    obtain ⟨owner, listed, holds⟩ := rooted.exists_place found member
    refine ⟨owner, ⟨listed, holds⟩, ?_⟩
    rintro other ⟨otherListed, otherHolds⟩
    refine List.inj_on_of_nodup_map found.distinct otherListed listed ?_
    have ownerRegion := found.regions owner listed
    have otherRegion := found.regions other otherListed
    -- A return step belongs to its own region only, and no other step is a root.
    rcases otherRegion.has_iff.mp otherHolds with root | toOther
    · rcases ownerRegion.has_iff.mp holds with same | path
      · rw [← root, same]
      · have output := otherRegion.output
        rw [← root, path.isOutput_eq_false] at output
        cases output
    · rcases ownerRegion.has_iff.mp holds with same | path
      · have output := ownerRegion.output
        rw [← same, toOther.isOutput_eq_false] at output
        cases output
      · exact unshared _ _ otherRegion.output ownerRegion.output toOther path

theorem hasOnePlace_of_isOutput (rooted : IsRooted graph steps terminal)
    (found : IsDiscovered graph (isOutputIn steps) terminal subplans) {step : Step}
    (member : step ∈ steps) (output : step.isOutput = true) :
    HasOnePlace subplans step.reference := by
  rw [rooted.hasOnePlace_iff found member]
  intro first second _ _ toFirst _
  have inside := toFirst.isOutput_eq_false
  rw [isOutputIn_reference rooted.distinct member, output] at inside
  cases inside

end IsRooted

/-! ## The decomposition -/

/-- The searches end by themselves: no larger bound takes them further. -/
structure WalksEnd (graph : PlanGraph) (isOutput : StepRef → Bool) (terminal : StepRef) : Prop where
  search : ∀ root bound, graph.edges.length + 1 ≤ bound →
    explore graph isOutput bound (graph.parents root).reverse ⟨[root], []⟩ =
      regionOf graph isOutput root
  walk : ∀ bound, graph.nodes.length ≤ bound →
    roots graph isOutput bound terminal = roots graph isOutput graph.nodes.length terminal

theorem IsRooted.walksEnd (rooted : IsRooted graph steps terminal) :
    WalksEnd graph (isOutputIn steps) terminal where
  search := by
    intro root bound enough
    exact explore_eq_of_le rooted.sound (pending_start_lt rooted.sound root) enough
  walk := by
    intro bound enough
    have rank := nestingRank_lt_length rooted.acyclic rooted.member
    exact roots_eq_of_le rooted.sound rooted.acyclic rank enough

structure IsDecomposition (graph : PlanGraph) (steps : List Step) (terminal : StepRef)
    (subplans : List Subplan) : Prop where
  /-- Different subplans have different roots. -/
  distinct : (subplans.map (·.root)).Nodup
  /-- The roots are the return steps. -/
  mem_roots_iff : ∀ reference, reference ∈ subplans.map (·.root) ↔
    ∃ step ∈ steps, step.reference = reference ∧ step.isOutput = true
  /-- A subplan holds its root and what leads to it without passing a return step. -/
  has_iff : ∀ subplan ∈ subplans, ∀ step, subplan.has step = true ↔
    step = subplan.root ∨ LeadsTo graph (isOutputIn steps) step subplan.root
  onePlace : ∀ step ∈ steps, HasOnePlace subplans step.reference
  increasing : subplans.Pairwise fun first second => first.id.number < second.id.number
  /-- A subplan comes after those whose roots it reads. -/
  readsEarlier : ∀ before subplan after, subplans = before ++ subplan :: after →
    ∀ other ∈ subplans, other ≠ subplan →
    ∀ step, subplan.has step = true → graph.Edge other.root step → other ∈ before
  last : ∃ front final, subplans = front ++ [final] ∧ final.root = terminal

theorem IsRooted.isDecomposition (rooted : IsRooted graph steps terminal) {subplans : List Subplan}
    (found : IsDiscovered graph (isOutputIn steps) terminal subplans)
    (onePlace : ∀ step ∈ steps, HasOnePlace subplans step.reference) :
    IsDecomposition graph steps terminal subplans where
  distinct := found.distinct
  mem_roots_iff := by
    intro reference
    rw [found.nested, rooted.isNested_iff, isOutputIn_eq_true_iff rooted.distinct]
  has_iff := by
    intro subplan listed step
    exact (found.regions subplan listed).has_iff
  onePlace := onePlace
  increasing := found.increasing
  readsEarlier := by
    intro before subplan after whole other otherListed differ step holds edge
    have listed : subplan ∈ subplans := by
      rw [whole]
      exact List.mem_append_right _ List.mem_cons_self
    have sameOf {first second : Subplan} (firstListed : first ∈ subplans)
        (secondListed : second ∈ subplans) (same : first.root = second.root) : first = second :=
      List.inj_on_of_nodup_map found.distinct firstListed secondListed same
    have inner : IsInner graph (isOutputIn steps) other.root subplan.root := by
      refine ⟨(found.regions other otherListed).output, ?_, step, ?_, edge⟩
      · intro same
        exact differ (sameOf otherListed listed same)
      · exact (found.regions subplan listed).has_iff.mp holds
    have ordered := found.inwardFirst
    rw [whole, List.map_append, List.map_cons] at ordered
    obtain ⟨earlier, member, same⟩ := List.mem_map.mp (ordered.mem_of_isInner inner)
    have earlierListed : earlier ∈ subplans := by
      rw [whole]
      exact List.mem_append_left _ member
    exact sameOf earlierListed otherListed same ▸ member
  last := found.last

theorem IsRooted.isUnshared_iff (rooted : IsRooted graph steps terminal) {subplans : List Subplan}
    (found : IsDiscovered graph (isOutputIn steps) terminal subplans) :
    IsUnshared graph steps ↔ ∀ step ∈ steps, HasOnePlace subplans step.reference :=
  forall₂_congr fun _ member => (rooted.hasOnePlace_iff found member).symm

/-- The two outcomes of the decomposition. -/
theorem IsRooted.decompose_cases (rooted : IsRooted graph steps terminal) :
    (IsUnshared graph steps ∧ ∃ subplans, decompose graph steps terminal = .ok subplans ∧
        IsDecomposition graph steps terminal subplans) ∨
      (¬ IsUnshared graph steps ∧ ∃ step ∈ steps, step.isOutput = false ∧ ∃ owners,
        decompose graph steps terminal = .error (.sharedStep step.reference.text owners)) := by
  have found := isDiscovered_discover rooted.sound rooted.acyclic rooted.member rooted.output
  unfold decompose
  dsimp only
  generalize discover graph (isOutputIn steps) terminal = subplans at found ⊢
  have different : subplans.Nodup := .of_map _ found.distinct
  have places {step : Step} (member : step ∈ steps) :=
    placeProblem?_eq different (rooted.exists_place found member)
      (rooted.hasOnePlace_of_isOutput found member)
  rw [rooted.isUnshared_iff found]
  cases problem : steps.findSome? (placeProblem? subplans) with
  | some error =>
      obtain ⟨step, member, refused⟩ := List.exists_of_findSome?_eq_some problem
      rcases places member with ⟨-, accepted⟩ | ⟨shared, inside, cause⟩
      · rw [accepted] at refused
        cases refused
      · rw [cause] at refused
        cases refused
        exact .inr ⟨fun onePlace => shared (onePlace step member), step, member, inside, _, rfl⟩
  | none =>
      have onePlace : ∀ step ∈ steps, HasOnePlace subplans step.reference := by
        intro step member
        have accepted := List.findSome?_eq_none_iff.mp problem step member
        rcases places member with ⟨onePlace, -⟩ | ⟨-, -, cause⟩
        · exact onePlace
        · rw [cause] at accepted
          cases accepted
      exact .inl ⟨onePlace, subplans, rfl, rooted.isDecomposition found onePlace⟩

/-- A graph of steps without cycles whose one sink is a return step is split into subplans, unless
some step leads to two return steps. -/
theorem decompose_exact (distinct : (steps.map (·.reference)).Nodup)
    (formed : PlanGraph.ofSteps steps = .ok graph) (acyclic : graph.IsAcyclic)
    (single : graph.sinks = [terminal]) (output : isOutputIn steps terminal = true) :
    WalksEnd graph (isOutputIn steps) terminal ∧
      ((∃ subplans, decompose graph steps terminal = .ok subplans) ↔ IsUnshared graph steps) ∧
      (∀ error, decompose graph steps terminal = .error error →
        error.code = "GRAPH_007" ∧ ∃ step ∈ steps, step.isOutput = false ∧
          ∃ owners, error = .sharedStep step.reference.text owners) ∧
      ∀ subplans, decompose graph steps terminal = .ok subplans →
        IsDecomposition graph steps terminal subplans := by
  have rooted := isRooted_of_sinks distinct formed acyclic single output
  refine ⟨rooted.walksEnd, ?_⟩
  rcases rooted.decompose_cases with
    ⟨unshared, found, split, isDecomposition⟩ | ⟨shared, step, member, inside, owners, refused⟩
  · rw [split]
    refine ⟨by simpa using unshared, by simp, ?_⟩
    rintro subplans ⟨⟩
    exact isDecomposition
  · rw [refused]
    refine ⟨by simpa using shared, ?_, by simp⟩
    rintro error ⟨⟩
    exact ⟨rfl, step, member, inside, owners, rfl⟩

def nestedSteps : List Step :=
  [⟨⟨"1", rfl⟩, .retrieveEntity, [.literal (.bare "Person")]⟩,
    ⟨⟨"2", rfl⟩, .retrieveAttribute, [.reference ⟨"1", rfl⟩, .literal (.bare "age")]⟩,
    ⟨⟨"3", rfl⟩, .collect, [.reference ⟨"2", rfl⟩]⟩,
    ⟨⟨"4", rfl⟩, .output, [.reference ⟨"3", rfl⟩]⟩,
    ⟨⟨"5", rfl⟩, .retrieveAttribute, [.reference ⟨"4", rfl⟩, .reference ⟨"2", rfl⟩]⟩,
    ⟨⟨"6", rfl⟩, .collect, [.reference ⟨"5", rfl⟩]⟩,
    ⟨⟨"7", rfl⟩, .output, [.reference ⟨"6", rfl⟩]⟩,
    ⟨⟨"8", rfl⟩, .retrieveAttribute, [.reference ⟨"4", rfl⟩, .reference ⟨"2", rfl⟩]⟩,
    ⟨⟨"9", rfl⟩, .retrieveAttribute, [.reference ⟨"7", rfl⟩, .reference ⟨"5", rfl⟩]⟩,
    ⟨⟨"10", rfl⟩, .collect, [.reference ⟨"8", rfl⟩, .reference ⟨"9", rfl⟩]⟩,
    ⟨⟨"11", rfl⟩, .output, [.reference ⟨"10", rfl⟩]⟩]

def nestedGraph : PlanGraph :=
  ⟨nestedSteps.map (·.reference), Links.ofSteps nestedSteps⟩

theorem ofSteps_nestedSteps : PlanGraph.ofSteps nestedSteps = .ok nestedGraph :=
  PlanGraph.ofSteps_eq_ok_iff.mpr ⟨by decide +kernel, rfl⟩

theorem nestedGraph_isAcyclic : nestedGraph.IsAcyclic := by
  let height (reference : StepRef) : Nat :=
    nestedSteps.findIdx fun step => step.reference = reference
  have sound := PlanGraph.isSound_of_ofSteps (by decide +kernel) ofSteps_nestedSteps
  have upwards : ∀ child ∈ nestedGraph.nodes, ∀ parent ∈ nestedGraph.parents child,
      height parent < height child := by
    decide +kernel
  exact PlanGraph.isAcyclic_of_height height fun edge => upwards _ (sound.child_mem edge) _ edge

/-- The innermost subplan is discovered twice and kept once, so a number is missing. -/
theorem decompose_exact_nestedSteps :
    PlanGraph.ofSteps nestedSteps = .ok nestedGraph ∧ nestedGraph.sinks = [⟨"11", rfl⟩] ∧
      (decompose nestedGraph nestedSteps ⟨"11", rfl⟩).map
          (fun subplans => subplans.map fun subplan => (subplan.id.number, subplan.root.name)) =
        .ok [(0, "4"), (1, "7"), (3, "11")] ∧
      ∃ subplans, decompose nestedGraph nestedSteps ⟨"11", rfl⟩ = .ok subplans ∧
        IsDecomposition nestedGraph nestedSteps ⟨"11", rfl⟩ subplans := by
  have formed := ofSteps_nestedSteps
  have single : nestedGraph.sinks = [⟨"11", rfl⟩] := by decide +kernel
  have whole := decompose_exact (by decide +kernel) formed nestedGraph_isAcyclic single
    (by decide +kernel)
  refine ⟨formed, single, by decide +kernel, ?_⟩
  exact exists_ok_of_isOk (by decide +kernel) whole.2.2.2

end SemanticQuery.Subplan
