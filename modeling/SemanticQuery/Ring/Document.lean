import SemanticQuery.Entries
import SemanticQuery.Json.Decode

/-!
# Ring documents

A ring document is the JSON from which a ring is loaded. This module decodes it and checks its
shape only; what it declares is checked when it is loaded.
-/

namespace SemanticQuery

namespace Document

structure JoinEntry where
  name : String
  source : String
  target : String
  /-- Each entry names the source column, the target column and possibly a key type. -/
  path : List (List String)
  bidirectional : Bool

structure AttributeSource where
  table : String
  columns : List String
  joins : List String

structure AttributeEntry where
  names : List String
  types : List String
  units : Option (List String)
  source : AttributeSource
  nullHandling : Option String
  nullValue : Option Json
  /-- Whether values are rounded, and the number of digits. -/
  rounding : Option (Json × Nat)

structure EntityEntry where
  name : String
  names : List String
  table : String
  identifiers : List String
  attributes : Entries String AttributeEntry

structure RelationshipEntry where
  name : String
  source : String
  target : String
  joins : List String
  relation : Option String
  bidirectional : Bool
  derived : Bool
  /-- The names of the relationships that a derived one is composed of. -/
  parts : List String

structure DataSource where
  kind : String
  connection : Option String
  tables : List String
  joins : List JoinEntry

end Document

structure Document where
  name : String
  source : Document.DataSource
  entities : List Document.EntityEntry
  relationships : List Document.RelationshipEntry

namespace Document

open Json

/-- Any JSON, as long as all of it is usable. -/
def anything : Decoder Json := fun json =>
  if json.isUsable then .ok json else expected "a value"

def tableOfJson : Decoder String := fun json => do
  let record ← Record.ofJson ["name", "primaryKey"] json
  let _ ← record.optional "primaryKey" anything
  record.required "name" asString

def joinOfJson : Decoder JoinEntry := fun json => do
  let record ← Record.ofJson ["name", "from", "to", "path", "bidirectional"] json
  .ok {
    name := ← record.required "name" asString
    source := ← record.required "from" asString
    target := ← record.required "to" asString
    path := ← record.required "path" (asList (asList asString))
    bidirectional := ← record.withDefault "bidirectional" asBool false }

def dataSourceOfJson : Decoder DataSource := fun json => do
  let record ← Record.ofJson ["type", "connectionString", "tables", "joins"] json
  .ok {
    kind := ← record.required "type" asString
    connection := ← record.optional "connectionString" asString
    tables := ← record.withDefault "tables" (asList tableOfJson) []
    joins := ← record.withDefault "joins" (asList joinOfJson) [] }

def sourceOfJson : Decoder AttributeSource := fun json => do
  let record ← Record.ofJson ["table", "columns", "joins"] json
  .ok {
    table := ← record.required "table" asString
    columns := ← record.required "columns" (asList asString)
    joins := ← record.withDefault "joins" (asList asString) [] }

def attributeOfJson : Decoder AttributeEntry := fun json => do
  let record ← Record.ofJson
    ["nicename", "type", "units", "source", "nullHandling", "nullValue", "rounding"] json
  .ok {
    names := ← record.required "nicename" (asList asString)
    types := ← record.withDefault "type" (asList asString) []
    units := ← record.optional "units" (asList asString)
    source := ← record.required "source" sourceOfJson
    nullHandling := ← record.optional "nullHandling" asString
    nullValue := ← record.optional "nullValue" anything
    rounding := ← record.optional "rounding" (asPair anything asNat32) }

def entityOfJson : Decoder EntityEntry := fun json => do
  let record ← Record.ofJson ["name", "nicename", "table", "id", "idType", "attributes"] json
  let _ ← record.optional "idType" anything
  .ok {
    name := ← record.required "name" asString
    names := ← record.required "nicename" (asList asString)
    table := ← record.required "table" asString
    identifiers := ← record.required "id" (asList asString)
    attributes := Entries.ofList (← record.withDefault "attributes" (asMembers attributeOfJson) []) }

def relationshipOfJson : Decoder RelationshipEntry := fun json => do
  let record ← Record.ofJson
    ["name", "from", "to", "join", "relation", "bidirectional", "derived", "relationshipList"] json
  .ok {
    name := ← record.required "name" asString
    source := ← record.required "from" asString
    target := ← record.required "to" asString
    joins := ← record.withDefault "join" (asList asString) []
    relation := ← record.optional "relation" asString
    bidirectional := ← record.withDefault "bidirectional" asBool false
    derived := ← record.withDefault "derived" asBool false
    parts := ← record.withDefault "relationshipList" (asList asString) [] }

/-- The entities and relationships that an object declares. -/
def ontologyOfRecord (record : Record) :
    Except String (List EntityEntry × List RelationshipEntry) := do
  .ok (← record.withDefault "entities" (asList entityOfJson) [],
    ← record.withDefault "relationships" (asList relationshipOfJson) [])

def ontologyOfJson : Decoder (List EntityEntry × List RelationshipEntry) := fun json => do
  ontologyOfRecord (← Record.ofJson ["entities", "relationships"] json)

/-- Decodes a ring document. From schema version 3 on, entities and relationships stand in an
object of their own when there is one. -/
def ofJson : Decoder Document := fun json => do
  let record ← Record.ofJson ["id", "name", "version", "schemaVersion", "dataSource", "entities",
    "relationships", "ontology"] json
  let _ ← record.optional "id" asString
  let _ ← record.optional "version" anything
  let name ← record.required "name" asString
  let version ← record.optional "schemaVersion" asNat32
  let source ← record.required "dataSource" dataSourceOfJson
  let own ← ontologyOfRecord record
  let nested ← record.optional "ontology" ontologyOfJson
  let chosen := match nested, version with
    | some declarations, some number => if 2 < number then declarations else own
    | _, _ => own
  .ok ⟨name, source, chosen.1, chosen.2⟩

end Document

end SemanticQuery
