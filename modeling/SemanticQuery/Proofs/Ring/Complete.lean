import SemanticQuery.Proofs.Ring.Linked

/-!
# Look-ups in accepted rings

In an accepted ring whatever a declaration names is declared.  Entities have identifiers, attributes
have columns in known tables, and the joins of attributes and relationships exist.  Looking up a field
of an entity therefore fails only for an unknown entity or attribute.
-/

namespace SemanticQuery

def Join.IsDeclared (joins : List Join) (name : String) : Prop :=
  ∃ join ∈ joins, join.name = name

def NameSet.Admits (tables : NameSet) (table : String) : Prop :=
  tables.isEmpty = true ∨ tables.contains table = true

/-- An attribute has columns in a known table, and its joins are declared. -/
structure Attribute.IsComplete (tables : NameSet) (joins : List Join) (a : Attribute) : Prop where
  columns : a.columns ≠ []
  table : tables.Admits a.table
  joins : ∀ name ∈ a.joins, Join.IsDeclared joins name

structure Entity.IsComplete (tables : NameSet) (joins : List Join) (entity : Entity) : Prop where
  identifiers : entity.identifiers ≠ []
  attributes : ∀ a ∈ entity.attributes, a.IsComplete tables joins

def Relationship.IsComplete (joins : List Join) (relationship : Relationship) : Prop :=
  ∀ name ∈ relationship.joins, Join.IsDeclared joins name

/-- All that is named in a ring is declared. -/
structure Ring.IsComplete (ring : Ring) : Prop where
  entities : ∀ entity ∈ ring.entities, entity.IsComplete ring.tables ring.joins
  relationships : ∀ relationship ∈ ring.relationships, relationship.IsComplete ring.joins

/-! ## Loading -/

namespace Document

variable {tables : NameSet} {joins : List Join}

theorem admits_of_tableProblems {context table : String}
    (noProblem : tableProblems tables context table = []) : tables.Admits table := by
  unfold tableProblems at noProblem
  split at noProblem
  · cases noProblem
  · rename_i admitted
    rw [Bool.and_eq_true, not_and_or, Bool.not_eq_true', Bool.not_eq_false, Bool.not_eq_true',
      Bool.not_eq_false] at admitted
    exact admitted

/-- Names that give no problem are those of declared joins. -/
theorem isDeclared_of_filter {names : List String} {problem : String → String}
    (noProblem : (names.filter fun name => !joins.any (·.name = name)).map problem = []) :
    ∀ name ∈ names, Join.IsDeclared joins name := by
  intro name member
  have accepted := List.filter_eq_nil_iff.mp (List.map_eq_nil_iff.mp noProblem) name member
  simpa [Join.IsDeclared] using accepted

theorem AttributeEntry.isComplete_build {entity : EntityEntry} {name : String}
    {entry : AttributeEntry} (noProblem : entry.problems tables joins entity name = []) :
    (entry.build name).IsComplete tables joins := by
  unfold AttributeEntry.problems at noProblem
  simp only [List.append_eq_nil_iff] at noProblem
  obtain ⟨⟨⟨⟨⟨⟨table, columns⟩, declared⟩, -⟩, -⟩, -⟩, -⟩ := noProblem
  refine ⟨?_, admits_of_tableProblems table, isDeclared_of_filter declared⟩
  intro none
  have isEmpty : entry.source.columns.isEmpty = true := List.isEmpty_iff.mpr none
  rw [if_pos isEmpty] at columns
  cases columns

theorem EntityEntry.isComplete_build {entry : EntityEntry}
    (noProblem : entry.problems tables joins = []) : entry.build.IsComplete tables joins := by
  unfold EntityEntry.problems at noProblem
  simp only [List.append_eq_nil_iff, List.flatMap_eq_nil_iff] at noProblem
  obtain ⟨⟨-, identifiers⟩, attributes⟩ := noProblem
  constructor
  · intro none
    have isEmpty : entry.identifiers.isEmpty = true := List.isEmpty_iff.mpr none
    rw [if_pos isEmpty] at identifiers
    cases identifiers
  · intro a member
    obtain ⟨pair, pairMember, rfl⟩ := List.mem_map.mp member
    exact AttributeEntry.isComplete_build (attributes pair pairMember)

theorem EntityEntry.areAll_load {loaded : Loaded Entity}
    (complete : loaded.AreAll (Entity.IsComplete tables joins)) (entry : EntityEntry) :
    (load tables joins loaded entry).AreAll (Entity.IsComplete tables joins) := by
  unfold load
  split
  · exact .of_problem _ _ _
  · refine complete.append ?_
    intro noProblem entity member
    rw [List.mem_singleton.mp member]
    exact isComplete_build noProblem

/-- The joins of a relationship are its own, which are checked, or those of earlier ones. -/
theorem RelationshipEntry.areAll_load {entities : List Entity} {loaded : Loaded Relationship}
    (complete : loaded.AreAll (Relationship.IsComplete joins)) (entry : RelationshipEntry) :
    (load joins entities loaded entry).AreAll (Relationship.IsComplete joins) := by
  intro noProblem
  have ⟨earlier, own⟩ := List.append_eq_nil_iff.mp noProblem
  refine complete.append ?_ noProblem
  intro _ relationship member
  rw [List.mem_singleton.mp member]
  unfold RelationshipEntry.problems at own
  simp only [List.append_eq_nil_iff] at own
  obtain ⟨⟨-, declared⟩, -⟩ := own
  intro name needed
  replace needed : name ∈ entry.allJoins loaded.items := needed
  unfold allJoins at needed
  split at needed
  · obtain ⟨part, -, fromPart⟩ := List.mem_flatMap.mp needed
    unfold partJoins? at fromPart
    cases found : loaded.items.find? fun relationship => relationship.name = part with
    | none => simp [found] at fromPart
    | some relationship =>
        rw [found, Option.map_some, Option.getD_some] at fromPart
        exact complete earlier relationship (List.mem_of_find?_eq_some found) name fromPart
  · rename_i notDerived
    rw [if_neg notDerived] at declared
    exact isDeclared_of_filter declared name needed

end Document

/-- An accepted ring is complete. -/
theorem Ring.isComplete_of_ofDocument {document : Document} {ring : Ring}
    (loads : Ring.ofDocument document = .ok ring) : ring.IsComplete := by
  unfold Ring.ofDocument at loads
  dsimp only at loads
  split at loads
  · rename_i noProblem
    cases loads
    simp only [List.isEmpty_iff, List.append_eq_nil_iff] at noProblem
    exact ⟨Loaded.areAll_foldl Document.EntityEntry.areAll_load _ noProblem.1.2,
      Loaded.areAll_foldl Document.RelationshipEntry.areAll_load _ noProblem.2⟩
  · cases loads

/-! ## Look-ups -/

namespace Ring

variable {ring : Ring} {entityName name : String} {error : Error}

theorem exists_join_of_isDeclared (declared : Join.IsDeclared ring.joins name) :
    ∃ join, ring.join name = .ok join := by
  obtain ⟨join, member, named⟩ := declared
  unfold Ring.join
  split
  · exact ⟨_, rfl⟩
  · rename_i missing
    have other := List.find?_eq_none.mp missing join member
    simp [named] at other

theorem eq_unknownEntity (failed : ring.entity entityName = .error error) :
    error = .unknownEntity entityName := by
  unfold Ring.entity at failed
  split at failed
  · cases failed
  · cases failed
    rfl

theorem physicalColumn_eq {table : String} (admitted : ring.tables.Admits table) (column : String) :
    ring.physicalColumn table column = .ok ⟨table, column⟩ := by
  refine if_neg ?_
  rcases admitted with none | listed
  · rw [none]
    exact Bool.false_ne_true
  · rw [listed, Bool.not_true, Bool.and_false]
    exact Bool.false_ne_true

/-- Looking up an attribute fails for its entity or for itself. -/
theorem attributeOf_error_cases (failed : ring.attributeOf entityName name = .error error) :
    error = .unknownEntity entityName ∨ error = .unknownAttribute entityName name := by
  rcases bind_eq_error_iff.mp failed with noEntity | ⟨entity, -, failed⟩
  · exact .inl (eq_unknownEntity noEntity)
  · split at failed
    · cases failed
    · cases failed
      exact .inr rfl

theorem attributeJoins_error_cases (failed : ring.attributeJoins entityName name = .error error) :
    error = .unknownEntity entityName ∨ ∃ base, error = .unknownAttribute entityName base := by
  rcases bind_eq_error_iff.mp failed with noEntity | ⟨entity, -, failed⟩
  · exact .inl (eq_unknownEntity noEntity)
  · dsimp only at failed
    split at failed
    · cases failed
    · rcases bind_eq_error_iff.mp failed with noAttribute | ⟨_, -, failed⟩
      · exact (attributeOf_error_cases noAttribute).imp_right fun unknown => ⟨_, unknown⟩
      · split at failed <;> cases failed

theorem joinsBetween_error_cases {first second : String}
    (failed : ring.joinsBetween first second = .error error) :
    (∃ unknown, error = .unknownEntity unknown) ∨ error = .noJoinPath first second := by
  rcases bind_eq_error_iff.mp failed with noFirst | ⟨-, -, failed⟩
  · exact .inl ⟨_, eq_unknownEntity noFirst⟩
  · rcases bind_eq_error_iff.mp failed with noSecond | ⟨-, -, failed⟩
    · exact .inl ⟨_, eq_unknownEntity noSecond⟩
    · split at failed
      · cases failed
        exact .inr rfl
      · cases failed

namespace IsComplete

/-- The joins of a path between entities are declared. -/
theorem isDeclared_of_joinsBetween (complete : ring.IsComplete) {first second : String}
    {names : NameSet} (found : ring.joinsBetween first second = .ok names) :
    ∀ name ∈ names, Join.IsDeclared ring.joins name := by
  obtain ⟨-, -, found⟩ := bind_eq_ok_iff.mp found
  obtain ⟨-, -, found⟩ := bind_eq_ok_iff.mp found
  split at found
  · cases found
  · cases found
    intro name member
    obtain ⟨index, -, listed⟩ := List.mem_flatMap.mp (NameSet.mem_ofList.mp member)
    split at listed
    · rename_i relationship isRelationship
      exact complete.relationships relationship (List.mem_of_getElem? isRelationship) name listed
    · cases listed

/-- The joins of an attribute are declared. -/
theorem isDeclared_of_attributeJoins (complete : ring.IsComplete) {names : NameSet}
    (found : ring.attributeJoins entityName name = .ok names) :
    ∀ join ∈ names, Join.IsDeclared ring.joins join := by
  obtain ⟨entity, known, found⟩ := bind_eq_ok_iff.mp found
  rw [entity_eq_ok_iff] at known
  dsimp only at found
  split at found
  · cases found
    nofun
  · obtain ⟨a, isAttribute, found⟩ := bind_eq_ok_iff.mp found
    have isAttribute := attributeOf_eq_ok known isAttribute
    split at found
    · cases found
      nofun
    · cases found
      intro join member
      have isComplete := (complete.entities entity (List.mem_of_find?_eq_some known)).attributes a
        (List.mem_of_find?_eq_some isAttribute)
      exact isComplete.joins join (NameSet.mem_ofList.mp member)

end IsComplete

end Ring

end SemanticQuery
