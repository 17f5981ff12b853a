import SemanticQuery.Json.Reader
import SemanticQuery.Ring.Basic
import SemanticQuery.Ring.Document

/-!
# Loading rings

A document is loaded declaration by declaration. Every problem is noted, in document order, and
the ring is accepted if there is none.
-/

namespace SemanticQuery

/-- What was loaded so far, with the problems noted on the way. -/
structure Loaded (α : Type) where
  items : List α
  problems : List String

namespace Document

/-- The problem of a table that is not among the declared ones; with none declared there is no
such problem. -/
def tableProblems (tables : NameSet) (context table : String) : List String :=
  if !tables.isEmpty && !tables.contains table then
    [s!"{context} references undeclared table '{table}'"]
  else []

namespace JoinEntry

def context (entry : JoinEntry) : String :=
  s!"join '{entry.name}'"

def columns (entry : JoinEntry) (pair : List String) : Except String JoinColumns :=
  match pair with
  | source :: target :: _ =>
      match ColumnRef.ofText? source, ColumnRef.ofText? target with
      | some source, some target =>
          if source.table ≠ entry.source ∨ target.table ≠ entry.target then
            .error (s!"{entry.context} path '{source.text} = {target.text}' must go from " ++
              s!"'{entry.source}' to '{entry.target}'")
          else .ok ⟨source, target⟩
      | _, _ => .error s!"{entry.context} has a path column not in 'table.column' form"
  | _ => .error s!"{entry.context} has a path entry without two columns"

def columnProblem? (entry : JoinEntry) (pair : List String) : Option String :=
  match entry.columns pair with
  | .ok _ => none
  | .error problem => some problem

def problems (tables : NameSet) (entry : JoinEntry) : List String :=
  tableProblems tables entry.context entry.source ++
    tableProblems tables entry.context entry.target ++
    if entry.path.isEmpty then [s!"{entry.context} has an empty path"]
    else entry.path.filterMap entry.columnProblem?

/-- The join of an entry whose path is not empty; column pairs with a problem are left out. -/
def join? (entry : JoinEntry) : Option Join :=
  if entry.path.isEmpty then none
  else some {
    name := entry.name
    sourceTable := entry.source
    targetTable := entry.target
    path := entry.path.filterMap fun pair => (entry.columns pair).toOption
    bidirectional := entry.bidirectional }

/-- Loads one join; a name that is taken is a problem. -/
def load (tables : NameSet) (loaded : Loaded Join) (entry : JoinEntry) : Loaded Join :=
  if loaded.items.any fun join => join.name = entry.name then
    ⟨loaded.items, loaded.problems ++ [s!"join '{entry.name}' is declared more than once"]⟩
  else
    ⟨loaded.items ++ entry.join?.toList, loaded.problems ++ entry.problems tables⟩

end JoinEntry

namespace AttributeEntry

def context (entity : EntityEntry) (name : String) : String :=
  s!"attribute '{entity.name}.{name}'"

def readProblem {α : Type} (context : String) : Except String α → List String
  | .ok _ => []
  | .error problem => [s!"{context}: {problem}"]

def problems (tables : NameSet) (joins : List Join) (entity : EntityEntry) (name : String)
    (entry : AttributeEntry) : List String :=
  let context := context entity name
  let source := entry.source
  tableProblems tables context source.table ++
    (if source.columns.isEmpty then [s!"{context} has no source column"] else []) ++
    (source.joins.filter fun join => !joins.any (·.name = join)).map
      (fun join => s!"{context} references unknown join '{join}'") ++
    (if source.table ≠ entity.table ∧ source.joins.isEmpty then
      [s!"{context} lives on '{source.table}' but declares no joins from '{entity.table}'"]
    else []) ++
    entry.types.flatMap (fun type => readProblem context (SemanticType.ofName type)) ++
    (entry.nullHandling.toList.flatMap fun text => readProblem context (NullHandling.ofName text)) ++
    (entry.nullValue.toList.flatMap fun json =>
      if (Value.ofJson? json).isNone then [s!"{context} has a non-scalar nullValue"] else [])

/-- Whether a rounding switch is on: `true`, or that word in any ASCII case. -/
def isEnabled : Json → Bool
  | .bool value => value
  | .string text => Text.lower text = "true"
  | _ => false

def build (name : String) (entry : AttributeEntry) : Attribute where
  name := name
  displayName := (NamePair.ofList? entry.names).getD ⟨name, name⟩
  types := SemanticType.expand (entry.types.filterMap fun type => (SemanticType.ofName type).toOption)
  units := entry.units.bind NamePair.ofList?
  table := entry.source.table
  columns := entry.source.columns
  joins := entry.source.joins
  nullHandling := (entry.nullHandling.bind fun text => (NullHandling.ofName text).toOption).getD .keep
  nullValue := entry.nullValue.bind Value.ofJson?
  rounding := entry.rounding.bind fun pair => if isEnabled pair.1 then some pair.2 else none

end AttributeEntry

namespace EntityEntry

def problems (tables : NameSet) (joins : List Join) (entry : EntityEntry) : List String :=
  let context := s!"entity '{entry.name}'"
  tableProblems tables context entry.table ++
    (if entry.names.isEmpty then [s!"{context} has no nicename"] else []) ++
    (if entry.identifiers.isEmpty then [s!"{context} has no identifier column"] else []) ++
    entry.attributes.flatMap fun pair => pair.2.problems tables joins entry pair.1

def build (entry : EntityEntry) : Entity where
  name := entry.name
  displayName := (NamePair.ofList? entry.names).getD ⟨entry.name, entry.name⟩
  table := entry.table
  identifiers := entry.identifiers
  attributes := entry.attributes.map fun pair => pair.2.build pair.1

def load (tables : NameSet) (joins : List Join) (loaded : Loaded Entity) (entry : EntityEntry) :
    Loaded Entity :=
  if loaded.items.any fun entity => entity.name = entry.name then
    ⟨loaded.items, loaded.problems ++ [s!"entity '{entry.name}' is declared more than once"]⟩
  else
    ⟨loaded.items ++ [entry.build], loaded.problems ++ entry.problems tables joins⟩

end EntityEntry

namespace RelationshipEntry

/-- The joins of the relationship that a part names, if it is declared before. -/
def partJoins? (earlier : List Relationship) (part : String) : Option (List String) :=
  (earlier.find? fun relationship => relationship.name = part).map (·.joins)

/-- The joins of a relationship: its own, or those of the parts it is derived from. -/
def allJoins (earlier : List Relationship) (entry : RelationshipEntry) : List String :=
  if entry.derived then entry.parts.flatMap fun part => (partJoins? earlier part).getD []
  else entry.joins

def problems (joins : List Join) (entities : List Entity) (earlier : List Relationship)
    (entry : RelationshipEntry) : List String :=
  let context := s!"relationship '{entry.name}'"
  ([entry.source, entry.target].filter fun name => !entities.any (·.name = name)).map
      (fun name => s!"{context} references unknown entity '{name}'") ++
    (if entry.derived then
      (entry.parts.filter fun part => (partJoins? earlier part).isNone).map
        (fun part => s!"{context} is derived from '{part}' which is not declared before it")
    else
      (entry.joins.filter fun join => !joins.any (·.name = join)).map
        (fun join => s!"{context} references unknown join '{join}'")) ++
    if (entry.allJoins earlier).isEmpty then [s!"{context} has no joins"] else []

def build (earlier : List Relationship) (entry : RelationshipEntry) : Relationship where
  name := entry.name
  source := entry.source
  target := entry.target
  joins := entry.allJoins earlier
  relation := entry.relation
  bidirectional := entry.bidirectional
  derived := entry.derived

def load (joins : List Join) (entities : List Entity) (loaded : Loaded Relationship)
    (entry : RelationshipEntry) : Loaded Relationship :=
  ⟨loaded.items ++ [entry.build loaded.items],
    loaded.problems ++ entry.problems joins entities loaded.items⟩

end RelationshipEntry

def dialect (document : Document) : Dialect × List String :=
  match Dialect.ofName document.source.kind with
  | .ok dialect => (dialect, [])
  | .error problem => (.sqlite, [problem])

end Document

namespace Ring

def ofDocument (document : Document) : Except Error Ring :=
  let tables := NameSet.ofList document.source.tables
  let joins := document.source.joins.foldl (Document.JoinEntry.load tables) ⟨[], []⟩
  let entities := document.entities.foldl (Document.EntityEntry.load tables joins.items) ⟨[], []⟩
  let relationships := document.relationships.foldl
    (Document.RelationshipEntry.load joins.items entities.items) ⟨[], []⟩
  let problems :=
    document.dialect.2 ++ joins.problems ++ entities.problems ++ relationships.problems
  if problems.isEmpty then
    .ok {
      name := document.name
      dialect := document.dialect.1
      connection := document.source.connection
      tables := tables
      joins := joins.items
      entities := entities.items
      relationships := relationships.items }
  else .error (.invalidRing document.name problems)

def ofText (text : String) : Except Error Ring :=
  match Json.scan text >>= Document.ofJson with
  | .ok document => ofDocument document
  | .error reason => .error (.malformedDocument reason)

end Ring

end SemanticQuery
