import SemanticQuery.Error
import SemanticQuery.Operation.Basic
import SemanticQuery.Sql.Emit

/-!
# Operations as SQL

How each operation is expressed in SQL over the expressions of its operands.
-/

namespace SemanticQuery.Operation

open Sql

def wrongCount (operation : Operation) (operands : List Expr) (expected : Nat) : Error :=
  .invariant
    s!"{operation.name} compiled with {operands.length} operand(s), expected {expected}"

def noOperands (operation : Operation) : Error :=
  .invariant s!"{operation.name} compiled without operands"

def withOne (operation : Operation) (operands : List Expr) (build : Expr → Expr) :
    Except Error Expr :=
  match operands with
  | [operand] => .ok (build operand)
  | _ => .error (operation.wrongCount operands 1)

def withTwo (operation : Operation) (operands : List Expr) (build : Expr → Expr → Expr) :
    Except Error Expr :=
  match operands with
  | [left, right] => .ok (build left right)
  | _ => .error (operation.wrongCount operands 2)

def function (operation : Operation) (name : String) (operands : List Expr) : Except Error Expr :=
  operation.withOne operands fun operand => .call name [operand]

/-- Operands combined by an operator from left to right. -/
def folded (operation : Operation) (operator : Operator) : List Expr → Except Error Expr
  | [] => .error operation.noOperands
  | first :: rest => .ok (rest.foldl (.binary operator) first)

/-- Predicates combined by a connective; a single one stands alone. -/
def connected (operation : Operation) (connective : Connective) : List Expr → Except Error Expr
  | [] => .error operation.noOperands
  | [operand] => .ok operand
  | operands => .ok (.logical connective operands)

def castFirst (dialect : Dialect) : List Expr → List Expr
  | [] => []
  | first :: rest => .cast first dialect.floatType :: rest

def meanOf (operand : Expr) : Expr :=
  .call "AVG" [operand]

/-- The mean of a product less the product of the means. -/
def covariance (left right : Expr) : Expr :=
  .binary .minus (meanOf (.binary .times left right)) (.binary .times (meanOf left) (meanOf right))

/-- The correlation of two expressions by their moments. -/
def correlationByMoments (left right : Expr) : Expr :=
  .binary .over (covariance left right)
    (.binary .times (.call "SQRT" [covariance left left]) (.call "SQRT" [covariance right right]))

def compile (operation : Operation) (dialect : Dialect) (operands : List Expr) :
    Except Error Expr :=
  match operation with
  | .equals => operation.withTwo operands (.binary .equal)
  | .lessThan => operation.withTwo operands (.binary .less)
  | .atMost => operation.withTwo operands (.binary .lessOrEqual)
  | .greaterThan => operation.withTwo operands (.binary .greater)
  | .atLeast => operation.withTwo operands (.binary .greaterOrEqual)
  | .contains => operation.withTwo operands fun text part =>
      .binary .like text
        (.binary .concat (.binary .concat (.constant "%") part) (.constant "%"))
  | .conjunction => operation.connected .and operands
  | .disjunction => operation.connected .or operands
  | .negation => operation.withOne operands .not
  | .add => operation.folded .plus operands
  | .subtract => operation.folded .minus operands
  | .multiply => operation.folded .times operands
  | .divide | .percentage => operation.folded .over (castFirst dialect operands)
  | .percentChange => operation.withTwo operands fun before after =>
      .binary .times
        (.binary .minus (.binary .over (.cast after dialect.floatType) before) (.integer 1))
        (.integer 100)
  | .squareRoot => operation.function "SQRT" operands
  | .absolute => operation.function "ABS" operands
  | .duration => operation.withTwo operands fun start finish =>
      match dialect with
      | .sqlite => .binary .minus (.call "julianday" [finish]) (.call "julianday" [start])
      | .postgres => .binary .minus (.cast finish "DATE") (.cast start "DATE")
  | .average => operation.function "AVG" operands
  | .count => operation.function "COUNT" operands
  | .countUnique => operation.withOne operands fun operand => .function "COUNT" true [operand]
  | .maximum => operation.function "MAX" operands
  | .minimum | .getOne => operation.function "MIN" operands
  | .sum => operation.function "SUM" operands
  | .median =>
      match dialect with
      | .sqlite => operation.function "median" operands
      | .postgres => operation.withOne operands fun operand =>
          .withinGroup "percentile_disc" [.value (.float (Binary64.ofDecimal false 5 (-1)))] operand
  | .deviation =>
      match dialect with
      | .sqlite => operation.function "stdev" operands
      | .postgres => operation.function "stddev" operands
  | .concatenation => operation.withOne operands fun operand =>
      match dialect with
      | .sqlite => .call "group_concat" [operand, .constant ", "]
      | .postgres => .call "string_agg" [.cast operand "TEXT", .constant ", "]
  | .correlation => operation.withTwo operands fun left right =>
      match dialect with
      | .sqlite => correlationByMoments left right
      | .postgres => .call "corr" [left, right]
  | .retrieveEntity | .retrieveAttribute | .groupBy | .sort | .limit | .rowNumber | .collect
  | .output => .error (.invariant s!"{operation.name} does not compile to an expression")

def rounded (dialect : Dialect) (digits : Nat) (operand : Expr) : Expr :=
  .call "ROUND" [.cast operand dialect.floatType, .integer digits]

end SemanticQuery.Operation
