import SemanticQuery.Proofs.Entries
import SemanticQuery.Proofs.Outcome
import SemanticQuery.Proofs.Ring.Accepted
import SemanticQuery.Proofs.Ring.Paths

/-!
# Linked rings

A ring is linked if the joins of its attributes and relationships lead to the tables that they are
declared for.  Then the joins between two entities lead to the table of the second: a path between
them ends with a relationship of it.
-/

namespace SemanticQuery

/-! ## Paths -/

namespace Relationship

variable {relationships : List Relationship} {goal : String}

def Touches (relationship : Relationship) (entity : String) : Prop :=
  relationship.source = entity ∨ relationship.target = entity

/-- A path to another entity has a relationship of that entity. -/
theorem exists_of_path? {start : String} {path : List Nat} (differ : start ≠ goal)
    (found : path? relationships start goal = some path) :
    ∃ index ∈ path, ∃ relationship, relationships[index]? = some relationship ∧
      relationship.Touches goal := by
  obtain ⟨index, listed, before, ⟨relationship, isRelationship, connects⟩, -⟩ :=
    (isShortest_of_path? found).walk.exists_last differ
  exact ⟨index, listed, relationship, isRelationship,
    (connects.imp And.right And.left).symm⟩

end Relationship

/-! ## Joins -/

namespace Ring

variable {ring : Ring}

theorem entity_eq_ok_iff {name : String} {entity : Entity} :
    ring.entity name = .ok entity ↔ ring.entity? name = some entity := by
  unfold Ring.entity
  split <;> simp [*]

theorem attributeOf_eq_ok {entityName name : String} {entity : Entity}
    {a : Attribute} (known : ring.entity? entityName = some entity)
    (found : ring.attributeOf entityName name = .ok a) : entity.attribute? name = some a := by
  obtain ⟨owner, isOwner, found⟩ := bind_eq_ok_iff.mp found
  obtain rfl : owner = entity := by
    rw [entity_eq_ok_iff, known] at isOwner
    exact (Option.some.inj isOwner).symm
  split at found
  · rename_i isFound
    cases found
    exact isFound
  · cases found

def reaches (ring : Ring) (names : List String) (table : String) : Bool :=
  names.any fun name =>
    (ring.joins.find? fun join => join.name = name).any fun join => join.HasEnd table

theorem reaches_iff {names : List String} {table : String} :
    ring.reaches names table = true ↔
      ∃ name ∈ names, ∃ join, ring.join name = .ok join ∧ join.HasEnd table := by
  simp only [reaches, List.any_eq_true, Option.any_eq_true, decide_eq_true_eq]
  refine exists_congr fun name => and_congr_right fun _ => exists_congr fun join =>
    and_congr_left fun _ => ?_
  unfold Ring.join
  split <;> simp [*]

theorem reaches_mono {names more : List String} (fewer : names ⊆ more) {table : String}
    (reached : ring.reaches names table = true) : ring.reaches more table = true := by
  rw [reaches_iff] at reached ⊢
  obtain ⟨name, listed, found⟩ := reached
  exact ⟨name, fewer listed, found⟩

/-- Whether the joins of an attribute reach its table.  An attribute in the table of its entity needs
none.  The name of an attribute must not end in a date part, or its joins are not looked up under
it. -/
def linksAttribute (ring : Ring) (entity : Entity) (a : Attribute) : Bool :=
  (DatePart.split a.name).1 = a.name && (a.table = entity.table || ring.reaches a.joins a.table)

/-- Whether the joins of a relationship reach the tables of both entities. -/
def linksRelationship (ring : Ring) (relationship : Relationship) : Bool :=
  [relationship.source, relationship.target].all fun name =>
    (ring.entity? name).all fun entity => ring.reaches relationship.joins entity.table

/-- Whether all joins of attributes and relationships lead where they should. -/
def isLinked (ring : Ring) : Bool :=
  (ring.entities.all fun entity => entity.attributes.all (ring.linksAttribute entity)) &&
    ring.relationships.all ring.linksRelationship

/-- The joins between two entities reach the table of the second. -/
theorem reaches_of_joinsBetween (linked : ring.isLinked = true) {first second : String}
    (differ : first ≠ second) {names : NameSet}
    (between : ring.joinsBetween first second = .ok names) {entity : Entity}
    (known : ring.entity? second = some entity) : ring.reaches names entity.table = true := by
  obtain ⟨-, -, between⟩ := bind_eq_ok_iff.mp between
  obtain ⟨-, -, between⟩ := bind_eq_ok_iff.mp between
  split at between
  · cases between
  · rename_i path isPath
    cases between
    obtain ⟨index, listed, relationship, isRelationship, touches⟩ :=
      Relationship.exists_of_path? differ isPath
    have links : ring.linksRelationship relationship = true := by
      rw [isLinked, Bool.and_eq_true] at linked
      exact List.all_eq_true.mp linked.2 relationship (List.mem_of_getElem? isRelationship)
    have reached : ring.reaches relationship.joins entity.table = true := by
      rw [linksRelationship, List.all_eq_true] at links
      have own := links second (by
        rcases touches with rfl | rfl
        · simp
        · simp)
      rw [known, Option.all_some] at own
      exact own
    refine reaches_mono ?_ reached
    intro name needed
    refine NameSet.mem_ofList.mpr (List.mem_flatMap.mpr ⟨index, listed, ?_⟩)
    rw [isRelationship]
    exact needed

/-- The joins of an attribute that a name reads reach its table. -/
theorem reaches_of_attributeJoins (linked : ring.isLinked = true) {entityName name : String}
    {entity : Entity} (known : ring.entity? entityName = some entity) {a : Attribute}
    (found : entity.attribute? name = some a) (elsewhere : a.table ≠ entity.table) {names : NameSet}
    (needed : ring.attributeJoins entityName name = .ok names) :
    ring.reaches names a.table = true := by
  have links : ring.linksAttribute entity a = true := by
    rw [isLinked, Bool.and_eq_true, List.all_eq_true] at linked
    have all := linked.1 entity (List.mem_of_find?_eq_some known)
    exact List.all_eq_true.mp all a (List.mem_of_find?_eq_some found)
  rw [linksAttribute, Bool.and_eq_true, Bool.or_eq_true, decide_eq_true_eq, decide_eq_true_eq]
    at links
  obtain ⟨plain, reached⟩ := links
  have isName : a.name = (DatePart.split name).1 := by
    simpa using List.find?_some found
  -- The name that remains has no date part, so the same attribute is found under it.
  have again : entity.attribute? (DatePart.split name).1 = some a := by
    rw [Entity.attribute?, ← isName, plain, isName]
    exact found
  have noIdentifier : entity.isIdentifier (DatePart.split name).1 = false := by
    rw [Entity.isIdentifier, Bool.and_eq_false_iff, decide_eq_false_iff_not]
    by_cases isId : (DatePart.split name).1 = "id"
    · rw [Entity.attribute?, isId] at found
      exact .inr (by rw [found]; rfl)
    · exact .inl isId
  obtain ⟨owner, isOwner, needed⟩ := bind_eq_ok_iff.mp needed
  obtain rfl : owner = entity := by
    rw [entity_eq_ok_iff, known] at isOwner
    exact (Option.some.inj isOwner).symm
  dsimp only at needed
  rw [noIdentifier] at needed
  obtain ⟨other, isOther, needed⟩ := bind_eq_ok_iff.mp needed
  obtain rfl : other = a := by
    rw [attributeOf_eq_ok known isOther] at again
    exact Option.some.inj again
  rw [if_neg elsewhere] at needed
  cases needed
  exact reaches_mono (fun name => NameSet.mem_ofList.mpr) (reached.resolve_left elsewhere)

end Ring

end SemanticQuery
