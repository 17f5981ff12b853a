import SemanticQuery.Dialect
import SemanticQuery.Error
import SemanticQuery.Json.Reader

/-!
# Compiler settings

Settings are read from a JSON object in which every member may be absent and no other member may
stand.
-/

namespace SemanticQuery

structure Settings where
  /-- Takes the place of the ring's dialect. -/
  dialect : Option Dialect := none
  /-- The digits kept by rounded operations such as `average`. -/
  roundingPrecision : Nat := 2
  nullsLast : Bool := true
  /-- Whether declared types of attributes are compared with what operations take. -/
  validateTypes : Bool := true
  deriving DecidableEq

namespace Settings

/-- The chosen dialect, or else the ring's. -/
def dialectOver (settings : Settings) (ringDialect : Dialect) : Dialect :=
  settings.dialect.getD ringDialect

def dialectOfJson : Json.Decoder Dialect := fun json => do
  match ← Json.asName json with
  | "sqlite" => .ok .sqlite
  | "postgres" => .ok .postgres
  | _ => Json.expected "a dialect"

def ofJson : Json.Decoder Settings := fun json => do
  let record ← Json.Record.ofJsonClosed
    ["dialect", "rounding_precision", "nulls_last", "validate_semantic_types"] json
  .ok {
    dialect := ← record.optional "dialect" dialectOfJson
    roundingPrecision := ← record.withDefault "rounding_precision" Json.asNat32 2
    nullsLast := ← record.withDefault "nulls_last" Json.asBool true
    validateTypes := ← record.withDefault "validate_semantic_types" Json.asBool true }

def ofText (text : String) : Except Error Settings :=
  match Json.read text >>= ofJson with
  | .ok settings => .ok settings
  | .error reason => .error (.malformedDocument reason)

end Settings

end SemanticQuery
