import SemanticQuery.Entries

/-!
# Relationships between entities

Relationships are the edges of an undirected graph of entity names. Of several relationships
between the same two entities the last declared one is the edge. `Relationship.path?` finds a
shortest path by breadth-first search: it records how each name was reached first, and when the
goal is reached it walks back by these records.
-/

namespace SemanticQuery

structure Relationship where
  name : String
  source : String
  target : String
  /-- The joins from the source to the target, in order. -/
  joins : List String
  relation : Option String
  bidirectional : Bool
  derived : Bool
  deriving DecidableEq

namespace Relationship

/-- For each entity its neighbours in the order of their first relationship, each with the index
of the last relationship to it. -/
abbrev Adjacency := Entries String (Entries String Nat)

def edgesOf (graph : Adjacency) (entity : String) : Entries String Nat :=
  (graph.get? entity).getD []

/-- Adds an edge in one direction; it replaces an earlier one between the same entities. -/
def connect (source target : String) (index : Nat) (graph : Adjacency) : Adjacency :=
  graph.put source ((edgesOf graph source).put target index)

def connectBoth (graph : Adjacency) (item : Relationship × Nat) : Adjacency :=
  connect item.1.target item.1.source item.2 (connect item.1.source item.1.target item.2 graph)

def adjacency (relationships : List Relationship) : Adjacency :=
  relationships.zipIdx.foldl connectBoth []

structure Frontier where
  /-- The entities whose neighbours are still to be visited, first reached first. -/
  queue : List String
  /-- All names that were reached, the start among them. -/
  seen : List String
  /-- For each name but the start, the entity that it was reached from and by which
  relationship. -/
  previous : Entries String (String × Nat)

/-- How a search ends. -/
inductive Ending where
  | found (path : List Nat)
  /-- All that can be reached was visited. -/
  | unreached
  /-- The bound was reached first. -/
  | exhausted
  deriving DecidableEq

def Ending.path? : Ending → Option (List Nat)
  | .found path => some path
  | .unreached | .exhausted => none

/-- Walks back from a name by what it was reached from. The indices are collected backwards; the
first argument bounds the number of steps. -/
def walkBack (previous : Entries String (String × Nat)) : Nat → String → List Nat → Ending
  | 0, _, _ => .exhausted
  | bound + 1, current, path =>
      match previous.get? current with
      | some (parent, index) => walkBack previous bound parent (path ++ [index])
      | none => .found path.reverse

/-- Visits the neighbours of an entity in order. The search ends if the goal is among them;
otherwise the neighbours that were not reached before join the frontier. -/
def visit (goal entity : String) : Entries String Nat → Frontier → Except Ending Frontier
  | [], frontier => .ok frontier
  | (name, index) :: rest, frontier =>
      if name ∈ frontier.seen then visit goal entity rest frontier
      else
        let previous := frontier.previous.put name (entity, index)
        -- No name is walked back to twice, so the number of records bounds the walk.
        if name = goal then .error (walkBack previous (previous.length + 1) goal [])
        else
          visit goal entity rest ⟨frontier.queue ++ [name], frontier.seen ++ [name], previous⟩

/-- Breadth-first search; the first argument bounds the number of entities visited. -/
def search (graph : Adjacency) (goal : String) : Nat → Frontier → Ending
  | _, ⟨[], _, _⟩ => .unreached
  | 0, _ => .exhausted
  | bound + 1, ⟨entity :: queue, seen, previous⟩ =>
      match visit goal entity (edgesOf graph entity) ⟨queue, seen, previous⟩ with
      | .error ending => ending
      | .ok frontier => search graph goal bound frontier

/-- The start counts as seen, so that nothing leads back beyond it. -/
def Frontier.start (entity : String) : Frontier :=
  ⟨[entity], [entity], []⟩

/-- The ending of the search between two entities. Each relationship has two ends, so no more
entities than that are visited beside the start. -/
def ending (relationships : List Relationship) (start goal : String) : Ending :=
  search (adjacency relationships) goal (2 * relationships.length + 1) (.start start)

/-- The relationships along a shortest path between two entities, by index. -/
def path? (relationships : List Relationship) (start goal : String) : Option (List Nat) :=
  if start = goal then some [] else (ending relationships start goal).path?

end Relationship

end SemanticQuery
