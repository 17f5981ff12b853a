import SemanticQuery.Operation.Basic
import SemanticQuery.Operation.Template
import SemanticQuery.Ring.SemanticType

/-!
# Descriptors of operations

A descriptor tells how many arguments an operation takes and of which semantic types, what it
produces, and the template that describes it. Arguments come in groups: runs of positions that
accept the same types.
-/

namespace SemanticQuery

/-- A run of argument positions. Without a greatest number it is unbounded. Bounds and counts are
words of 64 bits, and their sums wrap around. -/
structure ArgumentGroup where
  min : UInt64
  max : Option UInt64
  types : List SemanticType
  deriving DecidableEq

namespace ArgumentGroup

def minOf : List ArgumentGroup → UInt64
  | [] => 0
  | group :: rest => group.min + minOf rest

def maxOf : List ArgumentGroup → Option UInt64
  | [] => some 0
  | group :: rest =>
      match group.max, maxOf rest with
      | some own, some others => some (own + others)
      | _, _ => none

/-- How many of the remaining arguments a group takes, when later groups need `reserved`. -/
def take (group : ArgumentGroup) (reserved remaining : UInt64) : UInt64 :=
  let available := if reserved ≤ remaining then remaining - reserved else 0
  let wanted := match group.max with
    | some most => Min.min available most
    | none => available
  Max.max wanted (Min.min group.min remaining)

/-- The group of each argument, for groups counted from an index. Groups are filled in order, and
a group takes no argument that later groups need for their least number. -/
def assignFrom (index : Nat) : List ArgumentGroup → UInt64 → List Nat
  | [], _ => []
  | group :: rest, remaining =>
      let taken := group.take (minOf rest) remaining
      List.replicate taken.toNat index ++ assignFrom (index + 1) rest (remaining - taken)

def assign (groups : List ArgumentGroup) (count : UInt64) : List Nat :=
  assignFrom 0 groups count

/-- The number of arguments in words, such as `2`, `1 to 2` or `at least 1`. -/
def arity (groups : List ArgumentGroup) : String :=
  let least := (minOf groups).toNat.repr
  match maxOf groups with
  | some most => if minOf groups = most then least else s!"{least} to {most.toNat.repr}"
  | none => s!"at least {least}"

def one (types : List SemanticType) : ArgumentGroup :=
  ⟨1, some 1, types⟩

def upTo (most : UInt64) (types : List SemanticType) : ArgumentGroup :=
  ⟨0, some most, types⟩

def orMore (least : UInt64) (types : List SemanticType) : ArgumentGroup :=
  ⟨least, none, types⟩

end ArgumentGroup

/-- What an operation takes and produces, and how it is described. -/
structure Descriptor where
  groups : List ArgumentGroup
  /-- The types of the result. Empty when they depend on the arguments. -/
  result : List SemanticType
  template : Template

namespace Operation

open ArgumentGroup

def numericTypes : List SemanticType :=
  [.arithmetic, .metric, .quantity]

def orderedTypes : List SemanticType :=
  [.arithmetic, .metric, .quantity, .datetime, .startDate, .endDate]

def comparableTypes : List SemanticType :=
  orderedTypes ++ [.categorical, .identifier, .relatedIdentifier, .string, .document]

def textualTypes : List SemanticType :=
  [.categorical, .string, .document, .identifier]

/-- A value to analyse and possibly the grouping of rows. -/
def grouped (types : List SemanticType) : List ArgumentGroup :=
  [one types, upTo 1 [.group]]

def between (words : String) : Template :=
  [.slot 0, .text words, .slot 1]

def before (words : String) : Template :=
  [.text words, .slot 0]

def about (words : String) : Template :=
  [.text words, .target]

def comparison (types : List SemanticType) (words : String) : Descriptor :=
  ⟨[one types, one types], [.filter], between words⟩

def analysisOf (types result : List SemanticType) (words : String) : Descriptor :=
  ⟨grouped types, result, about words⟩

def descriptor : Operation → Descriptor
  | .retrieveEntity => ⟨[one [.string]], [.entity], [.slot 0]⟩
  | .retrieveAttribute =>
      ⟨[one [.entity], one [.string]], [.anyAttribute], [.slot 1, .text " of ", .slot 0]⟩
  | .groupBy =>
      ⟨[orMore 1 [.categorical, .datetime, .identifier, .relatedIdentifier]], [.group],
        before "grouped by "⟩
  | .equals => comparison comparableTypes " is "
  | .contains => comparison textualTypes " contains "
  | .lessThan => comparison orderedTypes " is less than "
  | .atMost => comparison orderedTypes " is less than or equal to "
  | .greaterThan => comparison orderedTypes " is greater than "
  | .atLeast => comparison orderedTypes " is greater than or equal to "
  | .conjunction => ⟨[orMore 1 [.filter]], [.filter], between " and "⟩
  | .disjunction => ⟨[orMore 1 [.filter]], [.filter], between " or "⟩
  | .negation => ⟨[one [.filter]], [.filter], before "not "⟩
  | .add => ⟨[orMore 2 numericTypes], [.arithmetic], between " plus "⟩
  | .subtract => ⟨[orMore 2 numericTypes], [.arithmetic], between " minus "⟩
  | .multiply => ⟨[orMore 2 numericTypes], [.arithmetic], between " times "⟩
  | .divide => ⟨[one numericTypes, one numericTypes], [.arithmetic], between " divided by "⟩
  | .squareRoot => ⟨[one numericTypes], [.arithmetic], before "square root of "⟩
  | .absolute => ⟨[one numericTypes], [.arithmetic], before "absolute value of "⟩
  | .percentChange =>
      ⟨[one numericTypes, one numericTypes], [.arithmetic],
        .text "percent change from " :: between " to "⟩
  | .percentage =>
      ⟨[one numericTypes, one numericTypes], [.arithmetic], between " as a percentage of "⟩
  | .duration =>
      ⟨[one [.datetime, .startDate], one [.datetime, .endDate]], [.arithmetic, .quantity],
        .text "days from " :: between " to "⟩
  | .average => analysisOf numericTypes [.arithmetic, .metric] "average of "
  | .count => analysisOf [.anyAttribute] [.arithmetic, .quantity] "number of "
  | .countUnique => analysisOf [.anyAttribute] [.arithmetic, .quantity] "number of unique "
  | .maximum => analysisOf orderedTypes [] "max of "
  | .minimum => analysisOf orderedTypes [] "min of "
  | .median => analysisOf numericTypes [.arithmetic, .metric] "median of "
  | .sum => analysisOf numericTypes [.arithmetic, .metric] "total "
  | .deviation => analysisOf numericTypes [.arithmetic, .metric] "standard deviation of "
  | .concatenation => analysisOf textualTypes [.string] "list of "
  | .getOne => ⟨grouped [.anyAttribute], [], [.target]⟩
  | .correlation =>
      ⟨one numericTypes :: grouped numericTypes, [.arithmetic],
        .text "correlation between " :: between " and "⟩
  | .sort => ⟨[orMore 1 [.anyAttribute], one [.string]], [.sort], before "sorted by "⟩
  | .limit => ⟨[one [.arithmetic]], [.limit], before "the first "⟩
  | .rowNumber => ⟨[one [.sort]], [.arithmetic, .rowNumber], before "rank by "⟩
  | .collect => ⟨[orMore 1 [.anyAttribute]], [.attributeCollection], [.slot 0]⟩
  | .output =>
      ⟨[one [.attributeCollection], upTo 2 [.filter], upTo 1 [.sort], upTo 1 [.limit]], [],
        [.slot 0]⟩

def minArguments (operation : Operation) : Nat :=
  (minOf operation.descriptor.groups).toNat

def maxArguments (operation : Operation) : Option Nat :=
  (maxOf operation.descriptor.groups).map UInt64.toNat

end Operation

end SemanticQuery
