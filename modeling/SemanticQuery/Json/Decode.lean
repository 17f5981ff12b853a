import SemanticQuery.Json.Basic

/-!
# Decoding JSON into records

A record is an object with known member names. A known name may occur once; a member may be
required, optional (absent or `null` is no value) or have a default when it is absent.
-/

namespace SemanticQuery.Json

/-- A decoder gives a value or the reason why the JSON has another shape. -/
abbrev Decoder (α : Type) := Json → Except String α

def expected {α : Type} (what : String) : Except String α :=
  .error ("expected " ++ what)

def asString : Decoder String
  | .string value => .ok value
  | _ => expected "a string"

def asBool : Decoder Bool
  | .bool value => .ok value
  | _ => expected "a boolean"

def asNat32 : Decoder Nat
  | .int value =>
      if 0 ≤ value ∧ value < 4294967296 then .ok value.toNat else expected "a small natural number"
  | _ => expected "a natural number"

def asList {α : Type} (item : Decoder α) : Decoder (List α)
  | .array items => items.mapM item
  | _ => expected "an array"

/-- `null` is no value. -/
def asOption {α : Type} (item : Decoder α) : Decoder (Option α)
  | .null => .ok none
  | json => (item json).map some

def asPair {α β : Type} (first : Decoder α) (second : Decoder β) : Decoder (α × β)
  | .array [a, b] => do .ok (← first a, ← second b)
  | _ => expected "an array of two items"

def asMembers {α : Type} (item : Decoder α) : Decoder (List (String × α))
  | .object members => members.mapM fun entry => do .ok (entry.1, ← item entry.2)
  | _ => expected "an object"

/-- A name from a closed list of names, written as a string or as an object whose only member has
that name and no content. -/
def asName : Decoder String
  | .string value => .ok value
  | .object [(name, .null)] => .ok name
  | _ => expected "a name"

/-- The members of a record whose known names occur at most once. -/
structure Record where
  members : List (String × Json)

namespace Record

/-- Reads an object as a record with these known names; other members are ignored. -/
def ofJson (known : List String) : Decoder Record
  | .object members =>
      match known.find? fun name => 1 < (members.filter (·.1 = name)).length with
      | some name => .error ("duplicate field " ++ name)
      | none => .ok ⟨members⟩
  | _ => expected "an object"

def ofJsonClosed (known : List String) (json : Json) : Except String Record := do
  let record ← ofJson known json
  match record.members.find? fun entry => !known.contains entry.1 with
  | some entry => .error ("unknown field " ++ entry.1)
  | none => .ok record

def get? (record : Record) (name : String) : Option Json :=
  (record.members.find? (·.1 = name)).map (·.2)

def required {α : Type} (record : Record) (name : String) (item : Decoder α) : Except String α :=
  match record.get? name with
  | some json => item json
  | none => .error ("missing field " ++ name)

def withDefault {α : Type} (record : Record) (name : String) (item : Decoder α) (default : α) :
    Except String α :=
  match record.get? name with
  | some json => item json
  | none => .ok default

def optional {α : Type} (record : Record) (name : String) (item : Decoder α) :
    Except String (Option α) :=
  record.withDefault name (asOption item) none

end Record

end SemanticQuery.Json
