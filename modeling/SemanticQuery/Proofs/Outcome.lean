import Mathlib.Data.List.Forall2

/-!
# Outcomes

Inversion of computations that may fail.  A computation in several parts succeeds exactly when each
part does on what the parts before it gave, and it fails with the failure of one part after the parts
before it have succeeded.  Without its failure an outcome is an option, which composes in the same way.
So do the failures that a computation can have, and the comparison of a computation that makes checks
with the one that leaves them out.
-/

namespace SemanticQuery

variable {ε α β σ : Type}

theorem bind_eq_ok_iff {first : Except ε α} {next : α → Except ε β} {result : β} :
    first >>= next = .ok result ↔ ∃ found, first = .ok found ∧ next found = .ok result := by
  cases first <;> simp [bind, Except.bind]

theorem bind_eq_error_iff {first : Except ε α} {next : α → Except ε β} {error : ε} :
    first >>= next = .error error ↔
      first = .error error ∨ ∃ found, first = .ok found ∧ next found = .error error := by
  cases first <;> simp [bind, Except.bind]

theorem map_eq_ok_iff {outcome : Except ε α} {f : α → β} {result : β} :
    outcome.map f = .ok result ↔ ∃ found, outcome = .ok found ∧ f found = result := by
  cases outcome <;> simp [Except.map]

theorem map_eq_error_iff {outcome : Except ε α} {f : α → β} {error : ε} :
    outcome.map f = .error error ↔ outcome = .error error := by
  cases outcome <;> simp [Except.map]

/-- What holds of every result holds of the result of a computation that succeeds. -/
theorem exists_ok_of_isOk {outcome : Except ε α} {property : α → Prop}
    (succeeds : outcome.isOk = true) (holds : ∀ found, outcome = .ok found → property found) :
    ∃ found, outcome = .ok found ∧ property found := by
  cases outcome with
  | error error => cases succeeds
  | ok found => exact ⟨found, rfl, holds found rfl⟩

/-- A property that every successful step with an item of the list keeps holds after a successful
run. -/
theorem foldlM_keeps_of_mem {step : σ → α → Except ε σ} (property : σ → Prop) {items : List α}
    (keeps : ∀ state, ∀ item ∈ items, ∀ after,
      property state → step state item = .ok after → property after)
    {state after : σ} (start : property state) (run : items.foldlM step state = .ok after) :
    property after := by
  induction items generalizing state with
  | nil =>
      cases run
      exact start
  | cons item rest ih =>
      rw [List.foldlM_cons, bind_eq_ok_iff] at run
      obtain ⟨middle, stepped, later⟩ := run
      have next := keeps state item List.mem_cons_self middle start stepped
      exact ih (fun state other member => keeps state other (List.mem_cons_of_mem _ member)) next
        later

/-- A property that every successful step keeps holds after a successful run. -/
theorem foldlM_keeps {step : σ → α → Except ε σ} (property : σ → Prop)
    (keeps : ∀ state item after, property state → step state item = .ok after → property after)
    {items : List α} {state after : σ} (start : property state)
    (run : items.foldlM step state = .ok after) : property after :=
  foldlM_keeps_of_mem property (fun state item _ => keeps state item) start run

/-- An item of a successful run succeeds in a state that has what the steps before it keep. -/
theorem exists_of_mem_foldlM {step : σ → α → Except ε σ} (property : σ → Prop)
    {items : List α}
    (keeps : ∀ state, ∀ item ∈ items, ∀ after,
      property state → step state item = .ok after → property after)
    {state after : σ} (start : property state) (run : items.foldlM step state = .ok after)
    {item : α} (member : item ∈ items) :
    ∃ middle next, property middle ∧ step middle item = .ok next := by
  induction items generalizing state with
  | nil => cases member
  | cons first rest ih =>
      rw [List.foldlM_cons, bind_eq_ok_iff] at run
      obtain ⟨middle, stepped, run⟩ := run
      rcases List.mem_cons.mp member with rfl | later
      · exact ⟨state, middle, start, stepped⟩
      · have next := keeps state first List.mem_cons_self middle start stepped
        exact ih (fun state other member => keeps state other (List.mem_cons_of_mem _ member)) next
          run later

/-- A property of a state and the items before it that every successful step keeps holds of all items
after a successful run. -/
theorem foldlM_keeps_prefix {step : σ → α → Except ε σ} (property : List α → σ → Prop)
    {items : List α}
    (keeps : ∀ before item later state after, items = before ++ item :: later →
      property before state → step state item = .ok after → property (before ++ [item]) after)
    {state after : σ} (start : property [] state) (run : items.foldlM step state = .ok after) :
    property items after := by
  -- The induction is on the items that are left.
  suffices ∀ left before state, items = before ++ left → property before state →
      left.foldlM step state = .ok after → property items after from
    this items [] state rfl start run
  intro left
  induction left with
  | nil =>
      intro before state whole holds run
      cases run
      rwa [whole, List.append_nil]
  | cons item later ih =>
      intro before state whole holds run
      rw [List.foldlM_cons, bind_eq_ok_iff] at run
      obtain ⟨middle, stepped, run⟩ := run
      refine ih (before ++ [item]) middle ?_ (keeps before item later state middle whole holds stepped)
        run
      rw [whole, List.append_assoc, List.singleton_append]

/-- A run that fails does so at one item, in a state that the successful steps with the items before
it have led to. -/
theorem exists_of_foldlM_eq_error {step : σ → α → Except ε σ} (property : List α → σ → Prop)
    {items : List α}
    (keeps : ∀ before item later state after, items = before ++ item :: later →
      property before state → step state item = .ok after → property (before ++ [item]) after)
    {state : σ} {error : ε} (start : property [] state)
    (run : items.foldlM step state = .error error) :
    ∃ before item later middle, items = before ++ item :: later ∧ property before middle ∧
      step middle item = .error error := by
  -- The induction is on the items that are left.
  suffices ∀ left before state, items = before ++ left → property before state →
      left.foldlM step state = .error error →
      ∃ before item later middle, items = before ++ item :: later ∧ property before middle ∧
        step middle item = .error error from
    this items [] state rfl start run
  intro left
  induction left with
  | nil =>
      intro before state whole holds run
      cases run
  | cons item later ih =>
      intro before state whole holds run
      rw [List.foldlM_cons, bind_eq_error_iff] at run
      rcases run with failed | ⟨middle, stepped, run⟩
      · exact ⟨before, item, later, state, whole, holds, failed⟩
      · refine ih (before ++ [item]) middle ?_
          (keeps before item later state middle whole holds stepped) run
        rw [whole, List.append_assoc, List.singleton_append]

/-- All items of a list succeed, each with its own result. -/
theorem mapM_eq_ok_iff {f : α → Except ε β} {items : List α} {results : List β} :
    items.mapM f = .ok results ↔
      List.Forall₂ (fun item result => f item = .ok result) items results := by
  induction items generalizing results with
  | nil => cases results <;> simp [pure, Except.pure]
  | cons item rest ih =>
      rw [List.mapM_cons, bind_eq_ok_iff]
      constructor
      · rintro ⟨first, firstOk, later⟩
        obtain ⟨others, othersOk, whole⟩ := bind_eq_ok_iff.mp later
        cases whole
        exact .cons firstOk (ih.mp othersOk)
      · intro all
        cases all with
        | cons firstOk othersOk =>
            exact ⟨_, firstOk, bind_eq_ok_iff.mpr ⟨_, ih.mpr othersOk, rfl⟩⟩

/-- Lists of related items have the same parts, if related items do. -/
theorem map_eq_map_of_forall₂ {γ : Type} {related : α → β → Prop} {part : α → γ} {partOf : β → γ}
    {items : List α} {others : List β} (each : ∀ item other, related item other →
      partOf other = part item) (all : List.Forall₂ related items others) :
    others.map partOf = items.map part := by
  induction all with
  | nil => rfl
  | cons first _ ih => rw [List.map_cons, List.map_cons, each _ _ first, ih]

theorem exists_of_mapM_eq_error {f : α → Except ε β} {items : List α} {error : ε}
    (run : items.mapM f = .error error) : ∃ item ∈ items, f item = .error error := by
  induction items with
  | nil => cases run
  | cons item rest ih =>
      rw [List.mapM_cons, bind_eq_error_iff] at run
      rcases run with failed | ⟨first, -, run⟩
      · exact ⟨item, List.mem_cons_self, failed⟩
      · rcases bind_eq_error_iff.mp run with later | ⟨others, -, impossible⟩
        · obtain ⟨other, member, failed⟩ := ih later
          exact ⟨other, List.mem_cons_of_mem _ member, failed⟩
        · cases impossible

theorem exists_mapM_eq_ok {f : α → Except ε β} {items : List α}
    (each : ∀ item ∈ items, ∃ result, f item = .ok result) :
    ∃ results, items.mapM f = .ok results := by
  cases run : items.mapM f with
  | ok results => exact ⟨results, rfl⟩
  | error error =>
      obtain ⟨item, member, failed⟩ := exists_of_mapM_eq_error run
      obtain ⟨result, succeeds⟩ := each item member
      rw [succeeds] at failed
      cases failed

theorem exists_of_forM_eq_error {f : α → Except ε Unit} {items : List α} {error : ε}
    (run : items.forM f = .error error) : ∃ item ∈ items, f item = .error error := by
  induction items with
  | nil => cases run
  | cons item rest ih =>
      rcases bind_eq_error_iff.mp run with failed | ⟨-, -, later⟩
      · exact ⟨item, List.mem_cons_self, failed⟩
      · obtain ⟨other, member, failed⟩ := ih later
        exact ⟨other, List.mem_cons_of_mem _ member, failed⟩

theorem exists_of_mem_mapM {f : α → Except ε β} {items : List α} {results : List β}
    (run : items.mapM f = .ok results) {result : β} (member : result ∈ results) :
    ∃ item ∈ items, f item = .ok result := by
  rw [mapM_eq_ok_iff] at run
  induction run with
  | nil => cases member
  | @cons item first items results itemOk _ ih =>
      rcases List.mem_cons.mp member with rfl | later
      · exact ⟨item, List.mem_cons_self, itemOk⟩
      · obtain ⟨other, otherMember, otherOk⟩ := ih later
        exact ⟨other, List.mem_cons_of_mem _ otherMember, otherOk⟩

theorem exists_result_of_mem_mapM {f : α → Except ε β} {items : List α} {results : List β}
    (run : items.mapM f = .ok results) {item : α} (member : item ∈ items) :
    ∃ result ∈ results, f item = .ok result := by
  rw [mapM_eq_ok_iff] at run
  induction run with
  | nil => cases member
  | @cons first result items results firstOk _ ih =>
      rcases List.mem_cons.mp member with rfl | later
      · exact ⟨result, List.mem_cons_self, firstOk⟩
      · obtain ⟨other, otherMember, otherOk⟩ := ih later
        exact ⟨other, List.mem_cons_of_mem _ otherMember, otherOk⟩

/-! ## Outcomes without their failures -/

@[simp] theorem toOption_ok (found : α) : (.ok found : Except ε α).toOption = some found :=
  rfl

@[simp] theorem toOption_error (error : ε) : (.error error : Except ε α).toOption = none :=
  rfl

@[simp] theorem toOption_bind (first : Except ε α) (next : α → Except ε β) :
    (first >>= next).toOption = first.toOption.bind fun found => (next found).toOption := by
  cases first <;> rfl

@[simp] theorem toOption_map (outcome : Except ε α) (f : α → β) :
    (outcome.map f).toOption = outcome.toOption.map f := by
  cases outcome <;> rfl

theorem toOption_eq_some_iff {outcome : Except ε α} {found : α} :
    outcome.toOption = some found ↔ outcome = .ok found := by
  cases outcome <;> simp [Except.toOption]

/-- A computation in other terms, if both of its parts are the same in them. -/
theorem toOption_bind_map {α' β' : Type} {first : Except ε α} {next : α → Except ε β}
    {otherFirst : Except ε α'} {otherNext : α' → Except ε β'} {f : α → α'} {g : β → β'}
    (simulates : otherFirst.toOption = first.toOption.map f)
    (later : ∀ found, first = .ok found →
      (otherNext (f found)).toOption = (next found).toOption.map g) :
    (otherFirst >>= otherNext).toOption = (first >>= next).toOption.map g := by
  rw [toOption_bind, toOption_bind, simulates, Option.bind_map, Option.map_bind]
  exact Option.bind_congr fun found isFound => later found (toOption_eq_some_iff.mp isFound)

theorem toOption_bind_same {β' : Type} {first otherFirst : Except ε α} {next : α → Except ε β}
    {otherNext : α → Except ε β'} {g : β → β'} (same : otherFirst.toOption = first.toOption)
    (later : ∀ found, (otherNext found).toOption = (next found).toOption.map g) :
    (otherFirst >>= otherNext).toOption = (first >>= next).toOption.map g := by
  refine toOption_bind_map (f := id) ?_ fun found _ => later found
  rw [same, Option.map_id_fun, id]

/-- A run in other terms, if each step is the same in them as long as a property holds that the steps
keep. -/
theorem toOption_foldlM_map {τ : Type} {step : σ → α → Except ε σ} {other : τ → β → Except ε τ}
    {f : σ → τ} {g : α → β} (property : σ → Prop) {items : List α}
    (simulates : ∀ state, ∀ item ∈ items, property state →
      (other (f state) (g item)).toOption = (step state item).toOption.map f)
    (keeps : ∀ state, ∀ item ∈ items, ∀ after,
      property state → step state item = .ok after → property after)
    (state : σ) (start : property state) :
    ((items.map g).foldlM other (f state)).toOption = (items.foldlM step state).toOption.map f := by
  induction items generalizing state with
  | nil => rfl
  | cons item rest ih =>
      rw [List.map_cons, List.foldlM_cons, List.foldlM_cons]
      refine toOption_bind_map (simulates state item List.mem_cons_self start) ?_
      intro middle stepped
      refine ih (fun state other member => simulates state other (List.mem_cons_of_mem _ member))
        (fun state other member => keeps state other (List.mem_cons_of_mem _ member)) middle ?_
      exact keeps state item List.mem_cons_self middle start stepped

theorem toOption_mapM_congr {f other : α → Except ε β} {items : List α}
    (same : ∀ item ∈ items, (other item).toOption = (f item).toOption) :
    (items.mapM other).toOption = (items.mapM f).toOption := by
  induction items with
  | nil => rfl
  | cons item rest ih =>
      have others := ih fun item member => same item (List.mem_cons_of_mem _ member)
      simp only [List.mapM_cons, toOption_bind, same item List.mem_cons_self, others]

theorem toOption_forM_congr {f other : α → Except ε Unit} {items : List α}
    (same : ∀ item ∈ items, (other item).toOption = (f item).toOption) :
    (items.forM other).toOption = (items.forM f).toOption := by
  induction items with
  | nil => rfl
  | cons item rest ih =>
      have others := ih fun item member => same item (List.mem_cons_of_mem _ member)
      have unfolded (f : α → Except ε Unit) :
          (item :: rest).forM f = f item >>= fun _ => rest.forM f := rfl
      simp only [unfolded, toOption_bind, same item List.mem_cons_self, others]

/-! ## Failures of one kind -/

/-- All failures of a computation have a property. -/
def FailsOnly (property : ε → Prop) (outcome : Except ε α) : Prop :=
  ∀ error, outcome = .error error → property error

namespace FailsOnly

variable {property : ε → Prop}

@[simp]
theorem ok (found : α) : FailsOnly property (.ok found : Except ε α) :=
  nofun

@[simp]
theorem error_iff {error : ε} : FailsOnly property (.error error : Except ε α) ↔ property error := by
  simp [FailsOnly]

theorem mono {weaker : ε → Prop} {outcome : Except ε α} (fails : FailsOnly property outcome)
    (implies : ∀ error, property error → weaker error) : FailsOnly weaker outcome :=
  fun error failed => implies error (fails error failed)

theorem bind {first : Except ε α} {next : α → Except ε β} (own : FailsOnly property first)
    (later : ∀ found, first = .ok found → FailsOnly property (next found)) :
    FailsOnly property (first >>= next) := by
  intro error failed
  rcases bind_eq_error_iff.mp failed with failed | ⟨found, isFound, failed⟩
  · exact own error failed
  · exact later found isFound error failed

theorem map {outcome : Except ε α} (own : FailsOnly property outcome) (f : α → β) :
    FailsOnly property (outcome.map f) :=
  fun error failed => own error (map_eq_error_iff.mp failed)

theorem mapM {f : α → Except ε β} {items : List α}
    (each : ∀ item ∈ items, FailsOnly property (f item)) : FailsOnly property (items.mapM f) := by
  intro error failed
  obtain ⟨item, member, failed⟩ := exists_of_mapM_eq_error failed
  exact each item member error failed

theorem forM {f : α → Except ε Unit} {items : List α}
    (each : ∀ item ∈ items, FailsOnly property (f item)) : FailsOnly property (items.forM f) := by
  intro error failed
  obtain ⟨item, member, failed⟩ := exists_of_forM_eq_error failed
  exact each item member error failed

theorem foldlM {step : σ → α → Except ε σ} {items : List α}
    (each : ∀ state, ∀ item ∈ items, FailsOnly property (step state item)) (state : σ) :
    FailsOnly property (items.foldlM step state) := by
  intro error failed
  obtain ⟨before, item, later, middle, whole, -, failed⟩ :=
    exists_of_foldlM_eq_error (fun _ _ => True) (fun _ _ _ _ _ _ _ _ => trivial) trivial failed
  exact each middle item (by simp [whole]) error failed

end FailsOnly

/-! ## Computations with and without checks -/

/-- A computation that makes checks gives what the one without them gives, up to a relation.  Where
the one without them succeeds, it fails only as a check does. -/
structure Guards (refused : ε → Prop) (related : α → β → Prop) (checked : Except ε α)
    (free : Except ε β) : Prop where
  sound : ∀ found, checked = .ok found → ∃ other, free = .ok other ∧ related found other
  refuses : ∀ other, free = .ok other → FailsOnly refused checked

namespace Guards

variable {refused : ε → Prop} {α' β' : Type} {related : α → α' → Prop} {after : β → β' → Prop}

theorem of_related {found : α} {other : α'} (holds : related found other) :
    Guards refused related (.ok found) (.ok other) := by
  refine ⟨?_, fun _ _ => FailsOnly.ok found⟩
  rintro _ ⟨⟩
  exact ⟨other, rfl, holds⟩

/-- Without a check, nothing differs. -/
theorem refl (outcome : Except ε α) : Guards refused Eq outcome outcome := by
  refine ⟨fun found isFound => ⟨found, isFound, rfl⟩, ?_⟩
  intro other isOther error failed
  rw [isOther] at failed
  cases failed

theorem bind {checked : Except ε α} {free : Except ε α'} {next : α → Except ε β}
    {freeNext : α' → Except ε β'} (first : Guards refused related checked free)
    (later : ∀ found other, free = .ok other → related found other →
      Guards refused after (next found) (freeNext other)) :
    Guards refused after (checked >>= next) (free >>= freeNext) := by
  constructor
  · intro result succeeds
    obtain ⟨found, isFound, succeeds⟩ := bind_eq_ok_iff.mp succeeds
    obtain ⟨other, isOther, holds⟩ := first.sound found isFound
    obtain ⟨last, isLast, relates⟩ := (later found other isOther holds).sound result succeeds
    exact ⟨last, bind_eq_ok_iff.mpr ⟨other, isOther, isLast⟩, relates⟩
  · intro result succeeds
    obtain ⟨other, isOther, succeeds⟩ := bind_eq_ok_iff.mp succeeds
    refine (first.refuses other isOther).bind fun found isFound => ?_
    obtain ⟨same, isSame, holds⟩ := first.sound found isFound
    cases isOther.symm.trans isSame
    exact (later found other isOther holds).refuses result succeeds

/-- After parts with equal results. -/
theorem bind_eq {checked free : Except ε α} {next : α → Except ε β} {freeNext : α → Except ε β'}
    (first : Guards refused Eq checked free)
    (later : ∀ found, free = .ok found → Guards refused after (next found) (freeNext found)) :
    Guards refused after (checked >>= next) (free >>= freeNext) := by
  refine first.bind ?_
  rintro found _ isFound rfl
  exact later found isFound

/-- Nothing is checked after the first part. -/
theorem bind_refl {checked free : Except ε α} (first : Guards refused Eq checked free)
    (next : α → Except ε β) : Guards refused Eq (checked >>= next) (free >>= next) :=
  first.bind_eq fun found _ => refl (next found)

/-- A check may come first that fails only as checks do whenever what follows it succeeds. -/
theorem check {check : Except ε σ} {checked : Except ε α} {free : Except ε α'}
    (only : ∀ other, free = .ok other → FailsOnly refused check)
    (guards : Guards refused related checked free) :
    Guards refused related (check >>= fun _ => checked) free := by
  constructor
  · intro found succeeds
    obtain ⟨-, -, succeeds⟩ := bind_eq_ok_iff.mp succeeds
    exact guards.sound found succeeds
  · intro other succeeds
    exact (only other succeeds).bind fun _ _ => guards.refuses other succeeds

theorem mapM {f other : α → Except ε β} {items : List α}
    (each : ∀ item ∈ items, Guards refused Eq (f item) (other item)) :
    Guards refused Eq (items.mapM f) (items.mapM other) := by
  induction items with
  | nil => exact refl _
  | cons item rest ih =>
      rw [List.mapM_cons, List.mapM_cons]
      have others := ih fun later member => each later (List.mem_cons_of_mem _ member)
      exact (each item List.mem_cons_self).bind_eq fun first _ => others.bind_refl _

theorem foldlM {τ : Type} {invariant : σ → τ → Prop} {step : σ → α → Except ε σ}
    {freeStep : τ → α → Except ε τ} (items : List α)
    (each : ∀ state other item, invariant state other →
      Guards refused invariant (step state item) (freeStep other item))
    {state : σ} {other : τ} (start : invariant state other) :
    Guards refused invariant (items.foldlM step state) (items.foldlM freeStep other) := by
  induction items generalizing state other with
  | nil => exact of_related start
  | cons item rest ih =>
      rw [List.foldlM_cons, List.foldlM_cons]
      exact (each state other item start).bind fun _ _ _ holds => ih holds

end Guards

end SemanticQuery
