import SemanticQuery.Text.Search

/-!
# SQL dialects

The dialects differ in the name of the type for fractional arithmetic, in the spelling of
placeholders and in some functions.
-/

namespace SemanticQuery

inductive Dialect where
  | sqlite
  | postgres
  deriving DecidableEq

namespace Dialect

def name : Dialect → String
  | .sqlite => "sqlite"
  | .postgres => "postgres"

/-- The type a value is cast to for fractional arithmetic and for rounding. -/
def floatType : Dialect → String
  | .sqlite => "REAL"
  | .postgres => "NUMERIC"

/-- The placeholder of the parameter at a position counted from one. -/
def placeholder : Dialect → Nat → String
  | .sqlite, _ => "?"
  | .postgres, position => "$" ++ position.repr

/-- Reads the name of a dialect in any ASCII case; otherwise says what is wrong with it. -/
def ofName (text : String) : Except String Dialect :=
  match Text.lower text with
  | "sqlite" => .ok .sqlite
  | "postgres" | "postgresql" => .ok .postgres
  | other => .error ("unsupported dialect '" ++ other ++ "'")

end Dialect

end SemanticQuery
