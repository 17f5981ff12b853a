/-!
# Operations

The closed set of operations that a step can name, and their categories. What each operation takes
and produces is told by its descriptor.
-/

namespace SemanticQuery

/-- What a step of an operation contributes to a query. -/
inductive Category where
  | retrieval
  /-- Grouping of rows. -/
  | aggregation
  /-- Predicates on rows or groups. -/
  | predicate
  | arithmetic
  /-- Functions of a group of rows. -/
  | analysis
  | sort
  | limit
  | rowNumber
  | collect
  | output
  deriving DecidableEq

namespace Category

def name : Category → String
  | .retrieval => "retrieval"
  | .aggregation => "aggregation"
  | .predicate => "boolean"
  | .arithmetic => "arithmetic"
  | .analysis => "analysis"
  | .sort => "sort"
  | .limit => "limit"
  | .rowNumber => "rownum"
  | .collect => "collect"
  | .output => "return"

def all : List Category :=
  [.retrieval, .aggregation, .predicate, .arithmetic, .analysis, .sort, .limit, .rowNumber, .collect,
    .output]

end Category

inductive Operation where
  | retrieveEntity
  | retrieveAttribute
  | groupBy
  | equals
  | contains
  | lessThan
  | atMost
  | greaterThan
  | atLeast
  | conjunction
  | disjunction
  | negation
  | add
  | subtract
  | multiply
  | divide
  | squareRoot
  | absolute
  | percentChange
  | percentage
  | duration
  | average
  | count
  | countUnique
  | maximum
  | minimum
  | median
  | sum
  | deviation
  | concatenation
  | getOne
  | correlation
  | sort
  | limit
  | rowNumber
  | collect
  /-- Returns the collected columns, and so ends a subplan. -/
  | output
  deriving DecidableEq

namespace Operation

def all : List Operation :=
  [.retrieveEntity, .retrieveAttribute, .groupBy, .equals, .contains, .lessThan, .atMost,
    .greaterThan, .atLeast, .conjunction, .disjunction, .negation, .add, .subtract, .multiply,
    .divide, .squareRoot, .absolute, .percentChange, .percentage, .duration, .average, .count,
    .countUnique, .maximum, .minimum, .median, .sum, .deviation, .concatenation, .getOne,
    .correlation, .sort, .limit, .rowNumber, .collect, .output]

def name : Operation → String
  | .retrieveEntity => "retrieve_entity"
  | .retrieveAttribute => "retrieve_attribute"
  | .groupBy => "groupby"
  | .equals => "exact"
  | .contains => "contains"
  | .lessThan => "lessthan"
  | .atMost => "lessthan_eq"
  | .greaterThan => "greaterthan"
  | .atLeast => "greaterthan_eq"
  | .conjunction => "and"
  | .disjunction => "or"
  | .negation => "not"
  | .add => "add"
  | .subtract => "subtract"
  | .multiply => "multiply"
  | .divide => "divide"
  | .squareRoot => "sqrt"
  | .absolute => "abs"
  | .percentChange => "percent_change"
  | .percentage => "percentage"
  | .duration => "duration"
  | .average => "average"
  | .count => "count"
  | .countUnique => "count_unique"
  | .maximum => "max"
  | .minimum => "min"
  | .median => "median"
  | .sum => "sum"
  | .deviation => "stddev"
  | .concatenation => "string_agg"
  | .getOne => "get_one"
  | .correlation => "correlation"
  | .sort => "sort"
  | .limit => "limit"
  | .rowNumber => "rownum"
  | .collect => "collect"
  | .output => "return"

def ofName? (text : String) : Option Operation :=
  all.find? fun operation => operation.name = text

def category : Operation → Category
  | .retrieveEntity | .retrieveAttribute => .retrieval
  | .groupBy => .aggregation
  | .equals | .contains | .lessThan | .atMost | .greaterThan | .atLeast | .conjunction
  | .disjunction | .negation => .predicate
  | .add | .subtract | .multiply | .divide | .squareRoot | .absolute | .percentChange | .percentage
  | .duration => .arithmetic
  | .average | .count | .countUnique | .maximum | .minimum | .median | .sum | .deviation
  | .concatenation | .getOne | .correlation => .analysis
  | .sort => .sort
  | .limit => .limit
  | .rowNumber => .rowNumber
  | .collect => .collect
  | .output => .output

def inCategory (category : Category) : List Operation :=
  all.filter fun operation => operation.category = category

/-- Whether an operation combines predicates instead of comparing values. -/
def isConnective : Operation → Bool
  | .conjunction | .disjunction | .negation => true
  | _ => false

def isCount : Operation → Bool
  | .count | .countUnique => true
  | _ => false

/-- Whether results are rounded to the precision of the settings. -/
def isRounded : Operation → Bool
  | .average | .deviation | .divide | .percentChange => true
  | _ => false

def isAnalysis (operation : Operation) : Bool :=
  operation.category = .analysis

def isArithmetic (operation : Operation) : Bool :=
  operation.category = .arithmetic

end Operation

end SemanticQuery
