import SemanticQuery.Dialect
import SemanticQuery.Error
import SemanticQuery.Ring.Attribute
import SemanticQuery.Ring.Relationship

/-!
# Rings

A ring describes a database by its meaning: entities with attributes, the joins between their
tables, and the relationships between entities that follow these joins. This module holds the
types and the look-ups.
-/

namespace SemanticQuery

/-- One pair of columns that must be equal for two rows to join. -/
structure JoinColumns where
  source : ColumnRef
  target : ColumnRef
  deriving DecidableEq

structure Join where
  name : String
  sourceTable : String
  targetTable : String
  /-- The column pairs; all must hold for two rows to join. -/
  path : List JoinColumns
  bidirectional : Bool
  deriving DecidableEq

/-- The label of a join that is followed from its target to its source. -/
def Join.reverseName (join : Join) : String :=
  "reverse_" ++ join.name

structure Entity where
  name : String
  displayName : NamePair
  /-- The table with one row for each entity. -/
  table : String
  /-- The identifying columns of that table. -/
  identifiers : List String
  attributes : List Attribute
  deriving DecidableEq

namespace Entity

def declared? (entity : Entity) (name : String) : Option Attribute :=
  entity.attributes.find? fun a => a.name = name

/-- The attribute that a name reads, whatever date part it asks for. -/
def attribute? (entity : Entity) (name : String) : Option Attribute :=
  entity.declared? (DatePart.split name).1

/-- `id` names the identifier unless an attribute of that name is declared. -/
def isIdentifier (entity : Entity) (name : String) : Bool :=
  name = "id" && (entity.declared? "id").isNone

end Entity

structure Ring where
  name : String
  dialect : Dialect
  connection : Option String
  /-- The declared tables; with none declared every table is accepted. -/
  tables : NameSet
  joins : List Join
  entities : List Entity
  relationships : List Relationship
  deriving DecidableEq

namespace Ring

def entity? (ring : Ring) (name : String) : Option Entity :=
  ring.entities.find? fun entity => entity.name = name

def isEntity (ring : Ring) (name : String) : Bool :=
  (ring.entity? name).isSome

def entity (ring : Ring) (name : String) : Except Error Entity :=
  match ring.entity? name with
  | some found => .ok found
  | none => .error (.unknownEntity name)

def attributeOf (ring : Ring) (entityName name : String) : Except Error Attribute := do
  let entity ← ring.entity entityName
  match entity.attribute? name with
  | some found => .ok found
  | none => .error (.unknownAttribute entityName name)

/-- The joins needed to reach an attribute's table from its entity's table. -/
def attributeJoins (ring : Ring) (entityName name : String) : Except Error NameSet := do
  let entity ← ring.entity entityName
  let base := (DatePart.split name).1
  if entity.isIdentifier base then .ok []
  else
    let found ← ring.attributeOf entityName base
    if found.table = entity.table then .ok [] else .ok (NameSet.ofList found.joins)

/-- The joins along the shortest relationship path between two entities. -/
def joinsBetween (ring : Ring) (first second : String) : Except Error NameSet := do
  let _ ← ring.entity first
  let _ ← ring.entity second
  match Relationship.path? ring.relationships first second with
  | none => .error (.noJoinPath first second)
  | some path =>
      .ok (NameSet.ofList (path.flatMap fun index =>
        match ring.relationships[index]? with
        | some relationship => relationship.joins
        | none => []))

def join (ring : Ring) (name : String) : Except Error Join :=
  match ring.joins.find? fun join => join.name = name with
  | some found => .ok found
  | none => .error (.unknownJoin name)

def physicalColumn (ring : Ring) (table column : String) : Except Error ColumnRef :=
  if !ring.tables.isEmpty && !ring.tables.contains table then .error (.unknownTable table)
  else .ok ⟨table, column⟩

end Ring

end SemanticQuery
