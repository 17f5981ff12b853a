import SemanticQuery.Json.Decode
import SemanticQuery.Number.Read

/-!
# Values

A value is one cell of a result, or a literal of a plan. Integers have 64 bits.
-/

namespace SemanticQuery

inductive Value where
  | null
  | boolean (value : Bool)
  | integer (value : Int)
  | float (value : Binary64)
  | text (value : String)
  deriving DecidableEq

namespace Value

/-- The value of a bare word: an integer, a finite floating point number, or the word as text. -/
def ofWord (word : String) : Value :=
  match Number.int64? word with
  | some value => .integer value
  | none =>
      match Number.binary64? word with
      | some value => if value.isFinite then .float value else .text word
      | none => .text word

/-- The value of a JSON scalar. Integers beyond 64 bits are floating point. -/
def ofJson? : Json → Option Value
  | .null => some .null
  | .bool value => some (.boolean value)
  | .int value =>
      some (if value < Number.int64Bound then .integer value else .float (Binary64.ofInt value))
  | .float value => some (.float value)
  | .string value => some (.text value)
  | .array _ | .object _ | .unusable => none

def ofJson : Json.Decoder Value := fun json =>
  match ofJson? json with
  | some value => .ok value
  | none => Json.expected "a scalar"

def toJson : Value → Json
  | .null => .null
  | .boolean value => .bool value
  | .integer value => .int value
  | .float value => .float value
  | .text value => .string value

def isNull : Value → Bool
  | .null => true
  | _ => false

def display : Value → String
  | .null => "null"
  | .boolean value => if value then "true" else "false"
  | .integer value => value.repr
  | .float value => Layout.plain.text value
  | .text value => value

end Value

end SemanticQuery
