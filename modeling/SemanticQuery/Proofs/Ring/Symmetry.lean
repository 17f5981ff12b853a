import SemanticQuery.Proofs.Ring.Linked

/-!
# Joins in both directions

A shortest path between two entities is one back as well, so joins are found in both directions or
in none, along paths of the same length.  Of several shortest paths the search takes the one that it
comes upon first, which may be another one from the other end.  So the joins can differ, unless all
shortest paths follow the same ones.
-/

namespace SemanticQuery

namespace Relationship

variable {relationships : List Relationship} {start goal : String} {path : List Nat}

theorem LinksLast.symm {index : Nat} {first second : String}
    (last : LinksLast relationships index first second) :
    LinksLast relationships index second first :=
  ⟨last.1.symm, fun other links => last.2 other links.symm⟩

/-- A shortest path leads back. -/
theorem IsShortest.reverse (shortest : IsShortest relationships start path goal) :
    IsShortest relationships goal path.reverse start where
  walk := shortest.walk.reverse fun _ _ _ last => last.symm
  least := by
    intro other walk
    have least := shortest.least _ (walk.reverse fun _ _ _ links => links.symm)
    rwa [List.length_reverse] at least ⊢

/-- A walk by last relationships ends where it starts, or goes on from a neighbour. -/
theorem IsWalk.neighbour_cases (walk : IsWalk (LinksLast relationships) start path goal) :
    start = goal ∧ path = [] ∨ ∃ edge ∈ neighbours relationships start, ∃ rest,
      path = edge.2 :: rest ∧ IsWalk (LinksLast relationships) edge.1 rest goal := by
  cases walk with
  | nil => exact .inl ⟨rfl, rfl⟩
  | @cons _ next _ index rest last walk =>
      exact .inr ⟨(next, index), mem_neighbours_iff.mpr last, rest, rfl, walk⟩

end Relationship

namespace Ring

open Relationship

variable {ring : Ring} {first second : String}

def joinsAlong (ring : Ring) (path : List Nat) : List String :=
  path.flatMap fun index =>
    match ring.relationships[index]? with
    | some relationship => relationship.joins
    | none => []

/-- All shortest paths between two entities follow the same joins. -/
def HasOneRoute (ring : Ring) (first second : String) : Prop :=
  ∀ path other, IsShortest ring.relationships first path second →
    IsShortest ring.relationships first other second →
    ∀ name, name ∈ ring.joinsAlong path ↔ name ∈ ring.joinsAlong other

theorem mem_joinsAlong_reverse {path : List Nat} {name : String} :
    name ∈ ring.joinsAlong path.reverse ↔ name ∈ ring.joinsAlong path := by
  simp [joinsAlong]

/-- The joins between two entities are those along a shortest path, if there is one. -/
theorem joinsBetween_cases {entity other : Entity} (isFirst : ring.entity first = .ok entity)
    (isSecond : ring.entity second = .ok other) :
    (∃ path, IsShortest ring.relationships first path second ∧
      ring.joinsBetween first second = .ok (.ofList (ring.joinsAlong path))) ∨
    ring.joinsBetween first second = .error (.noJoinPath first second) ∧
      ∀ walk, ¬IsWalk (Links ring.relationships) first walk second := by
  unfold joinsBetween
  rw [isFirst, isSecond]
  rcases path?_cases ring.relationships first second with
    ⟨path, found, shortest⟩ | ⟨stopped, -, unreached⟩
  · rw [found]
    exact .inl ⟨path, shortest, rfl⟩
  · rw [stopped]
    exact .inr ⟨rfl, unreached⟩

/-- Shortest paths in opposite directions follow the same joins if there is one route. -/
theorem HasOneRoute.ofList_eq (oneRoute : ring.HasOneRoute first second) {path back : List Nat}
    (shortest : IsShortest ring.relationships first path second)
    (backShortest : IsShortest ring.relationships second back first) :
    NameSet.ofList (ring.joinsAlong path) = NameSet.ofList (ring.joinsAlong back) := by
  refine sortedSet_congr Function.injective_id fun name => ?_
  rw [oneRoute path back.reverse shortest backShortest.reverse name, mem_joinsAlong_reverse]

theorem exists_entity_of_mem {entity : Entity} (member : entity ∈ ring.entities) :
    ∃ found, ring.entity entity.name = .ok found := by
  have known : (ring.entity? entity.name).isSome = true :=
    List.find?_isSome.mpr ⟨entity, member, decide_eq_true rfl⟩
  obtain ⟨found, isFound⟩ := Option.isSome_iff_exists.mp known
  exact ⟨found, entity_eq_ok_iff.mpr isFound⟩

/-- Between two entities of a ring joins are found in both directions or in none.  In each direction
they are those along a shortest path, and both paths have the same length.  Both directions give the
same joins if all shortest paths follow the same ones. -/
theorem joinsBetween_reversed {entity other : Entity} (isFirst : entity ∈ ring.entities)
    (isSecond : other ∈ ring.entities) :
    ring.joinsBetween entity.name other.name = .error (.noJoinPath entity.name other.name) ∧
        ring.joinsBetween other.name entity.name = .error (.noJoinPath other.name entity.name) ∨
      ∃ path back, IsShortest ring.relationships entity.name path other.name ∧
        IsShortest ring.relationships other.name back entity.name ∧ path.length = back.length ∧
        ring.joinsBetween entity.name other.name = .ok (.ofList (ring.joinsAlong path)) ∧
        ring.joinsBetween other.name entity.name = .ok (.ofList (ring.joinsAlong back)) ∧
        (ring.HasOneRoute entity.name other.name →
          ring.joinsBetween entity.name other.name = ring.joinsBetween other.name entity.name) := by
  obtain ⟨_, isFirst⟩ := exists_entity_of_mem isFirst
  obtain ⟨_, isSecond⟩ := exists_entity_of_mem isSecond
  rcases joinsBetween_cases isFirst isSecond with ⟨path, shortest, there⟩ | ⟨there, unreached⟩
  · rcases joinsBetween_cases isSecond isFirst with ⟨back, backShortest, andBack⟩ | ⟨-, unreached⟩
    · refine .inr ⟨path, back, shortest, backShortest, ?_, there, andBack, fun oneRoute => ?_⟩
      · exact Nat.le_antisymm (shortest.length_le backShortest) (backShortest.length_le shortest)
      · rw [there, andBack, oneRoute.ofList_eq shortest backShortest]
    · exact (unreached _ shortest.isWalk_reverse).elim
  · rcases joinsBetween_cases isSecond isFirst with ⟨back, backShortest, -⟩ | ⟨andBack, -⟩
    · exact (unreached _ backShortest.isWalk_reverse).elim
    · exact .inl ⟨there, andBack⟩

end Ring

def officeRelationship (name source target join : String) : Document.RelationshipEntry :=
  { name, source, target, joins := [join], relation := none, bidirectional := false, derived := false,
    parts := [] }

/-- A document of employees, who work in departments and on projects, and of the offices of these. -/
def officeDocument (relationships : List Document.RelationshipEntry) : Document where
  name := "offices"
  source := {
    kind := "sqlite"
    connection := none
    tables := ["employee", "department", "project", "office"]
    joins := [joining "employee_department" "employee" "department" "department_id" "id",
      joining "department_head" "department" "employee" "head_id" "id",
      joining "employee_project" "employee" "project" "project_id" "id",
      joining "project_office" "project" "office" "office_id" "id",
      joining "department_office" "department" "office" "office_id" "id"] }
  entities := [entity "Employee" "employee", entity "Department" "department",
    entity "Project" "project", entity "Office" "office"]
  relationships := relationships
where
  joining (name source target sourceColumn targetColumn : String) : Document.JoinEntry :=
    { name, source, target, path := [[source ++ "." ++ sourceColumn, target ++ "." ++ targetColumn]],
      bidirectional := false }
  entity (name table : String) : Document.EntityEntry :=
    { name, names := [table, table ++ "s"], table, identifiers := ["id"], attributes := [] }

/-- Employees and offices are connected by departments only, and employees and departments by two
relationships, the last of which counts. -/
def headedOffices : Document := officeDocument [
  officeRelationship "works_in" "Employee" "Department" "employee_department",
  officeRelationship "headed_by" "Department" "Employee" "department_head",
  officeRelationship "located_in" "Department" "Office" "department_office"]

theorem Ring.joinsBetween_reversed_headedOffices :
    ∃ ring, Ring.ofDocument headedOffices = .ok ring ∧
      ∃ employee ∈ ring.entities, ∃ office ∈ ring.entities,
        ring.HasOneRoute employee.name office.name ∧
        ring.joinsBetween employee.name office.name = .ok ["department_head", "department_office"] ∧
        ring.joinsBetween office.name employee.name = .ok ["department_head", "department_office"] := by
  have runs : (Ring.ofDocument headedOffices).map (fun ring =>
      decide (∃ employee ∈ ring.entities, ∃ office ∈ ring.entities,
        (employee.name = "Employee" ∧ office.name = "Office") ∧
        Relationship.neighbours ring.relationships "Employee" = [("Department", 1)] ∧
        Relationship.neighbours ring.relationships "Department" = [("Employee", 1), ("Office", 2)] ∧
        ring.joinsBetween "Employee" "Office" = .ok ["department_head", "department_office"])) =
      .ok true := by
    decide +kernel
  obtain ⟨ring, loads, holds⟩ := map_eq_ok_iff.mp runs
  obtain ⟨employee, isEmployee, office, isOffice, ⟨employeeName, officeName⟩, ofEmployee, ofDepartment,
    there⟩ := of_decide_eq_true holds
  have toDepartment : Relationship.LinksLast ring.relationships 1 "Employee" "Department" :=
    Relationship.mem_neighbours_iff.mp (by rw [ofEmployee]; simp)
  have toOffice : Relationship.LinksLast ring.relationships 2 "Department" "Office" :=
    Relationship.mem_neighbours_iff.mp (by rw [ofDepartment]; simp)
  have only {path : List Nat}
      (shortest : Relationship.IsShortest ring.relationships "Employee" path "Office") :
      path = [1, 2] := by
    have short := shortest.least _ (.cons toDepartment.1 (.cons toOffice.1 (.nil "Office")))
    rcases shortest.walk.neighbour_cases with ⟨same, -⟩ | ⟨edge, listed, rest, rfl, walk⟩
    · exact absurd same (by decide)
    · rw [ofEmployee, List.mem_singleton] at listed
      subst listed
      rcases walk.neighbour_cases with ⟨same, -⟩ | ⟨edge, listed, rest, rfl, onward⟩
      · exact absurd same (by decide)
      · -- Two steps are enough, so the second one leads to the goal.
        obtain rfl : rest = [] := List.eq_nil_of_length_eq_zero (by simpa using short)
        rcases onward.neighbour_cases with ⟨same, -⟩ | ⟨_, _, _, impossible, -⟩
        · rw [ofDepartment] at listed
          rcases List.mem_pair.mp listed with rfl | rfl
          · exact absurd same (by decide)
          · rfl
        · cases impossible
  have oneRoute : ring.HasOneRoute employee.name office.name := by
    rw [employeeName, officeName]
    intro path other shortest otherShortest name
    rw [only shortest, only otherShortest]
  rw [← employeeName, ← officeName] at there
  refine ⟨ring, loads, employee, isEmployee, office, isOffice, oneRoute, there, ?_⟩
  rcases Ring.joinsBetween_reversed isEmployee isOffice with ⟨failed, -⟩ | ⟨_, _, -, -, -, -, -, same⟩
  · rw [there] at failed
    cases failed
  · rw [← same oneRoute, there]

/-- Employees and offices are connected by departments and by projects. -/
def crossedOffices : Document := officeDocument [
  officeRelationship "works_in" "Employee" "Department" "employee_department",
  officeRelationship "works_on" "Employee" "Project" "employee_project",
  officeRelationship "based_in" "Project" "Office" "project_office",
  officeRelationship "located_in" "Department" "Office" "department_office"]

/-- The way from employees to offices goes by departments, the way back by projects. -/
theorem Ring.exists_joinsBetween_ne :
    ∃ ring, Ring.ofDocument crossedOffices = .ok ring ∧
      ∃ employee ∈ ring.entities, ∃ office ∈ ring.entities,
        ring.joinsBetween employee.name office.name =
          .ok ["department_office", "employee_department"] ∧
        ring.joinsBetween office.name employee.name = .ok ["employee_project", "project_office"] := by
  have runs : (Ring.ofDocument crossedOffices).map (fun ring =>
      decide (∃ employee ∈ ring.entities, ∃ office ∈ ring.entities,
        ring.joinsBetween employee.name office.name =
          .ok ["department_office", "employee_department"] ∧
        ring.joinsBetween office.name employee.name = .ok ["employee_project", "project_office"])) =
      .ok true := by
    decide +kernel
  obtain ⟨ring, loads, differ⟩ := map_eq_ok_iff.mp runs
  exact ⟨ring, loads, of_decide_eq_true differ⟩

end SemanticQuery
