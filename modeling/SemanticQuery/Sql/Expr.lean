import SemanticQuery.Step.Basic
import SemanticQuery.Value

/-!
# SQL expressions and queries

The part of SQL that plans compile to, as trees. Texts from plans and rings occur as bound values,
as names and, for a few constants of the compiler, as string constants.
-/

namespace SemanticQuery.Sql

inductive Operator where
  | equal
  | less
  | lessOrEqual
  | greater
  | greaterOrEqual
  | plus
  | minus
  | times
  | over
  | like
  | concat
  deriving DecidableEq

def Operator.symbol : Operator → String
  | .equal => "="
  | .less => "<"
  | .lessOrEqual => "<="
  | .greater => ">"
  | .greaterOrEqual => ">="
  | .plus => "+"
  | .minus => "-"
  | .times => "*"
  | .over => "/"
  | .like => "LIKE"
  | .concat => "||"

def Operator.all : List Operator :=
  [.equal, .less, .lessOrEqual, .greater, .greaterOrEqual, .plus, .minus, .times, .over, .like,
    .concat]

inductive Connective where
  | and
  | or
  deriving DecidableEq

structure OrderTerm (α : Type) where
  expr : α
  direction : Direction
  nullsLast : Bool

inductive Expr where
  | column (table name : String)
  | value (value : Value)
  /-- A string constant that the compiler chose. -/
  | constant (text : String)
  | binary (operator : Operator) (left right : Expr)
  | logical (connective : Connective) (operands : List Expr)
  | not (operand : Expr)
  | function (name : String) (distinct : Bool) (arguments : List Expr)
  | cast (operand : Expr) (type : String)
  /-- An aggregate over ordered rows. -/
  | withinGroup (name : String) (arguments : List Expr) (orderBy : Expr)
  | rowNumber (orderBy : List (OrderTerm Expr))

namespace Expr

def call (name : String) (arguments : List Expr) : Expr :=
  .function name false arguments

def integer (value : Int) : Expr :=
  .value (.integer value)

end Expr

/-- A table, or a query under an alias. -/
inductive TableRef (σ : Type) where
  | table (name : String)
  | derived (query : σ) (label : String)

/-- The name by which columns of a table are qualified. -/
def TableRef.name {σ : Type} : TableRef σ → String
  | .table name => name
  | .derived _ label => label

inductive JoinKind where
  | leftOuter
  | cross
  deriving DecidableEq

structure JoinClause (σ : Type) where
  kind : JoinKind
  table : TableRef σ
  condition : Option Expr
  /-- What the join follows: the name of a declared join, or its reverse name. -/
  relation : Option String

structure Select where
  columns : List (Expr × String)
  source : TableRef Select
  joins : List (JoinClause Select) := []
  filter : Option Expr := none
  groupBy : List Expr := []
  having : Option Expr := none
  orderBy : List (OrderTerm Expr) := []
  limit : Option Nat := none

end SemanticQuery.Sql
