/-!
# Ordered maps and sorted sets

An ordered map is a list of entries with distinct keys, in the order in which the keys first
appeared; putting a key again changes its value and keeps its place. A sorted set is a list in
strictly increasing order of a text key.
-/

namespace SemanticQuery

/-- The entries of an ordered map. -/
abbrev Entries (κ α : Type) := List (κ × α)

namespace Entries

variable {κ α : Type} [DecidableEq κ]

def get? (key : κ) : Entries κ α → Option α
  | [] => none
  | (k, value) :: rest => if k = key then some value else get? key rest

def has (key : κ) (entries : Entries κ α) : Bool :=
  (get? key entries).isSome

/-- Gives a key a value: in its place if it has one, otherwise at the end. -/
def put (key : κ) (value : α) : Entries κ α → Entries κ α
  | [] => [(key, value)]
  | (k, old) :: rest => if k = key then (k, value) :: rest else (k, old) :: put key value rest

/-- Gives a key a value unless it has one. -/
def putNew (key : κ) (value : α) (entries : Entries κ α) : Entries κ α :=
  if has key entries then entries else entries ++ [(key, value)]

/-- The map that results from putting each entry in turn. -/
def ofList (pairs : List (κ × α)) : Entries κ α :=
  pairs.foldl (fun entries pair => put pair.1 pair.2 entries) []

/-- The items that are listed under a key. -/
def listed (key : κ) (lists : Entries κ (List α)) : List α :=
  (get? key lists).getD []

/-- Lists an item under a key, behind those that are there. -/
def push (key : κ) (item : α) (lists : Entries κ (List α)) : Entries κ (List α) :=
  put key (listed key lists ++ [item]) lists

end Entries

/-- Adds an item to a list without repetitions. -/
def addNew {α : Type} [DecidableEq α] (item : α) (items : List α) : List α :=
  if item ∈ items then items else items ++ [item]

def insertSorted {α : Type} (key : α → String) (item : α) : List α → List α
  | [] => [item]
  | other :: rest =>
      if key item < key other then item :: other :: rest
      else if key item = key other then other :: rest
      else other :: insertSorted key item rest

def sortedSet {α : Type} (key : α → String) (items : List α) : List α :=
  items.foldl (fun set item => insertSorted key item set) []

/-- A sorted set of names. -/
abbrev NameSet := List String

namespace NameSet

def insert (name : String) (names : NameSet) : NameSet :=
  insertSorted id name names

def ofList (names : List String) : NameSet :=
  sortedSet id names

end NameSet

end SemanticQuery
