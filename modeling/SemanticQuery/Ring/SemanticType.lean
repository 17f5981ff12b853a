import SemanticQuery.Text.Search

/-!
# Semantic types

A semantic type says what an attribute means, or what an operation takes and produces. Ring
documents declare only the types that describe data.
-/

namespace SemanticQuery

inductive SemanticType where
  | arithmetic
  | categorical
  | document
  | datetime
  | metric
  | identifier
  | entity
  | anyAttribute
  | group
  | filter
  | sort
  | limit
  | rowNumber
  | attributeCollection
  | string
  | startDate
  | endDate
  | quantity
  | relatedIdentifier
  deriving DecidableEq

namespace SemanticType

def name : SemanticType → String
  | .arithmetic => "Arithmetic"
  | .categorical => "Categorical"
  | .document => "Document"
  | .datetime => "Datetime"
  | .metric => "Metric"
  | .identifier => "Identifier"
  | .entity => "Entity"
  | .anyAttribute => "Attribute"
  | .group => "Group"
  | .filter => "Filter"
  | .sort => "Sort"
  | .limit => "Limit"
  | .rowNumber => "RowNum"
  | .attributeCollection => "AttributeCollection"
  | .string => "String"
  | .startDate => "StartDate"
  | .endDate => "EndDate"
  | .quantity => "Quantity"
  | .relatedIdentifier => "RelatedIdentifier"

def declarable : List SemanticType :=
  [.arithmetic, .categorical, .document, .datetime, .metric, .identifier, .relatedIdentifier,
    .entity, .anyAttribute, .group, .string, .startDate, .endDate, .quantity]

/-- Reads a declared type in any ASCII case; otherwise says what is wrong with it. -/
def ofName (text : String) : Except String SemanticType :=
  match declarable.find? fun type => Text.lower type.name = Text.lower text with
  | some type => .ok type
  | none => .error s!"unknown semantic type '{Text.lower text}'"

def listing (types : List SemanticType) : String :=
  String.intercalate ", " (types.map name)

def isPeriodEnd : SemanticType → Bool
  | .startDate | .endDate => true
  | _ => false

/-- Declared types with those they imply: every attribute is an attribute, and the start or end of
a period is a date. -/
def expand (declared : List SemanticType) : List SemanticType :=
  let types := declared ++ [.anyAttribute]
  if declared.any isPeriodEnd && !types.contains .datetime then types ++ [.datetime] else types

end SemanticType

end SemanticQuery
