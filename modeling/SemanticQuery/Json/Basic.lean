import SemanticQuery.Number.Layout
import SemanticQuery.Text.Utf8

/-!
# JSON values and their text

Objects keep their members in written order, repeated names included, because the order of a
plan's steps and of an entity's attributes is part of their meaning. `Json.compact` writes a value
without blanks, `Json.pretty` with an indentation of two.
-/

namespace SemanticQuery

/-- A JSON value. A number is an integer when it is written as one and fits 64 bits. -/
inductive Json where
  /-- Well-formed text without a value: a number beyond the range of floating point, a string with
  half a surrogate pair, or an object with such a string for a name. It does no harm where nobody
  looks at it. -/
  | unusable
  | null
  | bool (value : Bool)
  | int (value : Int)
  | float (value : Binary64)
  | string (value : String)
  | array (items : List Json)
  | object (members : List (String × Json))

namespace Json

mutual

/-- The number of nested levels; a scalar has one. -/
def depth : Json → Nat
  | .array items => depthOfItems items + 1
  | .object members => depthOfMembers members + 1
  | _ => 1

def depthOfItems : List Json → Nat
  | [] => 0
  | item :: rest => max (depth item) (depthOfItems rest)

def depthOfMember : String × Json → Nat
  | (_, value) => depth value

def depthOfMembers : List (String × Json) → Nat
  | [] => 0
  | item :: rest => max (depthOfMember item) (depthOfMembers rest)

end

mutual

/-- Whether no part of a value is unusable. -/
def isUsable : Json → Bool
  | .unusable => false
  | .array items => areUsableItems items
  | .object members => areUsableMembers members
  | _ => true

def areUsableItems : List Json → Bool
  | [] => true
  | item :: rest => isUsable item && areUsableItems rest

def isUsableMember : String × Json → Bool
  | (_, value) => isUsable value

def areUsableMembers : List (String × Json) → Bool
  | [] => true
  | item :: rest => isUsableMember item && areUsableMembers rest

end

def escapeChar (c : Char) : List Char :=
  if c = '"' then ['\\', '"']
  else if c = '\\' then ['\\', '\\']
  else if c = '\n' then ['\\', 'n']
  else if c = '\r' then ['\\', 'r']
  else if c = '\t' then ['\\', 't']
  else if c.toNat = 0x08 then ['\\', 'b']
  else if c.toNat = 0x0C then ['\\', 'f']
  else if c.toNat < 0x20 then
    ['\\', 'u', '0', '0', Text.hexDigit (c.toNat / 16), Text.hexDigit (c.toNat % 16)]
  else [c]

def quote (text : String) : String :=
  String.ofList ('"' :: (text.toList.flatMap escapeChar ++ ['"']))

/-- The text of a number; JSON has no infinities and no not-a-number. -/
def floatText (x : Binary64) : String :=
  if x.isFinite then Layout.sql.text x else "null"

def openBrace : String := "\x7b"

def closeBrace : String := "\x7d"

mutual

def compact : Json → String
  | .unusable | .null => "null"
  | .bool value => if value then "true" else "false"
  | .int value => value.repr
  | .float value => floatText value
  | .string value => quote value
  | .array items => "[" ++ String.intercalate "," (compactItems items) ++ "]"
  | .object members => openBrace ++ String.intercalate "," (compactMembers members) ++ closeBrace

def compactItems : List Json → List String
  | [] => []
  | item :: rest => compact item :: compactItems rest

def compactMember : String × Json → String
  | (name, value) => quote name ++ ":" ++ compact value

def compactMembers : List (String × Json) → List String
  | [] => []
  | item :: rest => compactMember item :: compactMembers rest

end

/-- A bracketed block with one entry a line, or the bare brackets when there is no entry. -/
def block (opening closing : String) (depth : Nat) (entries : List String) : String :=
  if entries.isEmpty then opening ++ closing
  else
    let indent := String.ofList (List.replicate (2 * depth) ' ')
    let lines := entries.map fun entry => "\n" ++ indent ++ "  " ++ entry
    opening ++ String.intercalate "," lines ++ "\n" ++ indent ++ closing

mutual

/-- Writes a value at a nesting depth, two blanks a level. -/
def prettyAt (depth : Nat) : Json → String
  | .unusable | .null => "null"
  | .bool value => if value then "true" else "false"
  | .int value => value.repr
  | .float value => floatText value
  | .string value => quote value
  | .array items => block "[" "]" depth (prettyItems (depth + 1) items)
  | .object members => block openBrace closeBrace depth (prettyMembers (depth + 1) members)

def prettyItems (depth : Nat) : List Json → List String
  | [] => []
  | item :: rest => prettyAt depth item :: prettyItems depth rest

def prettyMember (depth : Nat) : String × Json → String
  | (name, value) => quote name ++ ": " ++ prettyAt depth value

def prettyMembers (depth : Nat) : List (String × Json) → List String
  | [] => []
  | item :: rest => prettyMember depth item :: prettyMembers depth rest

end

def pretty (value : Json) : String :=
  prettyAt 0 value

example : pretty (.object [("sql", .string "x"), ("params", .array [])]) =
    openBrace ++ "\n  \"sql\": \"x\",\n  \"params\": []\n" ++ closeBrace := by decide +kernel

end Json

end SemanticQuery
