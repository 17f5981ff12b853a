import SemanticQuery.Ring.SemanticType
import SemanticQuery.Value

/-!
# Attributes of entities

An attribute names a physical column and how to read it. A date part such as `:year` at the end of
an attribute's name asks for a part of a date; it is no part of the declared name.
-/

namespace SemanticQuery

structure NamePair where
  singular : String
  plural : String
  deriving DecidableEq

namespace NamePair

def empty : NamePair :=
  ⟨"", ""⟩

/-- The first two names of a list; a single name is its own plural. -/
def ofList? : List String → Option NamePair
  | [] => none
  | [singular] => some ⟨singular, singular⟩
  | singular :: plural :: _ => some ⟨singular, plural⟩

end NamePair

structure ColumnRef where
  table : String
  column : String
  deriving DecidableEq

namespace ColumnRef

/-- Reads `table.column`. The table ends at the first point; neither part may be empty. -/
def ofText? (text : String) : Option ColumnRef :=
  match Text.splitFirst? '.' text with
  | some (table, column) => if table.isEmpty || column.isEmpty then none else some ⟨table, column⟩
  | none => none

def text (reference : ColumnRef) : String :=
  reference.table ++ "." ++ reference.column

end ColumnRef

inductive DatePart where
  | day
  | dayOfWeek
  | month
  | onlyDay
  | onlyMonth
  | year
  deriving DecidableEq

namespace DatePart

def all : List DatePart :=
  [.day, .dayOfWeek, .month, .onlyDay, .onlyMonth, .year]

def suffix : DatePart → String
  | .day => "day"
  | .dayOfWeek => "dayofweek"
  | .month => "month"
  | .onlyDay => "onlyday"
  | .onlyMonth => "onlymonth"
  | .year => "year"

/-- The words in front of the name of an attribute that is read through this part. -/
def label : DatePart → String
  | .day => "year/month/day of"
  | .dayOfWeek => "day of the week of"
  | .month => "year/month of"
  | .onlyDay => "day of"
  | .onlyMonth => "month of"
  | .year => "year of"

def ofSuffix? (text : String) : Option DatePart :=
  all.find? fun part => part.suffix = text

/-- Splits a date part off a name. A name without a known date part after its last colon, or with
nothing before it, stays whole. -/
def split (name : String) : String × Option DatePart :=
  match Text.splitLast? ':' name with
  | some (base, word) =>
      match ofSuffix? word with
      | some part => if base.isEmpty then (name, none) else (base, some part)
      | none => (name, none)
  | none => (name, none)

end DatePart

inductive NullHandling where
  | keep
  /-- They are replaced with the attribute's null value. -/
  | cast
  deriving DecidableEq

namespace NullHandling

def name : NullHandling → String
  | .keep => "Keep"
  | .cast => "Cast"

/-- Reads a declared handling in any ASCII case; otherwise says what is wrong with it. -/
def ofName (text : String) : Except String NullHandling :=
  match Text.lower text with
  | "cast" => .ok .cast
  | "keep" | "ignore" | "none" => .ok .keep
  | other => .error s!"unknown null handling '{other}'"

end NullHandling

structure Attribute where
  name : String
  displayName : NamePair
  types : List SemanticType
  units : Option NamePair
  table : String
  columns : List String
  /-- The joins from the entity's table to the attribute's table. -/
  joins : List String
  nullHandling : NullHandling
  nullValue : Option Value
  /-- The number of digits to round to, if values are rounded. -/
  rounding : Option Nat
  deriving DecidableEq

namespace Attribute

def hasType (a : Attribute) (type : SemanticType) : Bool :=
  a.types.contains type

def column? (a : Attribute) : Option String :=
  a.columns.head?

end Attribute

end SemanticQuery
