import SemanticQuery.Dialect
import SemanticQuery.Sql.Expr

/-!
# Writing SQL

A query is written from left to right. Each text that it holds is bound: a placeholder is written
in its place, and the text becomes the next parameter of the statement. Writing is therefore a
computation with the parameters as its state, and it runs through the parts of a query in the order
in which they are written.
-/

namespace SemanticQuery.Sql

/-- A text between two marks, with each mark in it doubled. -/
def doubled (mark : Char) (text : String) : String :=
  String.ofList (mark :: (text.toList.flatMap (fun c => if c = mark then [c, c] else [c]) ++ [mark]))

def quoteName (name : String) : String :=
  doubled '"' name

def quoteConstant (text : String) : String :=
  doubled '\x27' text

def Connective.separator : Connective → String
  | .and => " AND "
  | .or => " OR "

def directionText : Direction → String
  | .ascending => " ASC"
  | .descending => " DESC"

/-- A computation that adds to the parameters of a statement. -/
abbrev Emitter := StateM (List Value)

def emitValue (dialect : Dialect) : Value → Emitter String
  | .null => return "NULL"
  | .boolean value => return if value then "TRUE" else "FALSE"
  | .integer value => return value.repr
  | .float value => return Layout.sql.text value
  | .text content => do
      modify (· ++ [.text content])
      -- The parameter that was added last has the number of all that are there.
      return dialect.placeholder (← get).length

mutual

/-- Writes an expression. Operators stand in parentheses. -/
def Expr.emit (dialect : Dialect) : Expr → Emitter String
  | .column table name => return quoteName table ++ "." ++ quoteName name
  | .value content => emitValue dialect content
  | .constant content => return quoteConstant content
  | .binary operator left right => do
      let first ← left.emit dialect
      let second ← right.emit dialect
      return "(" ++ first ++ " " ++ operator.symbol ++ " " ++ second ++ ")"
  | .logical connective operands => do
      let texts ← Expr.emitList dialect operands
      return "(" ++ connective.separator.intercalate texts ++ ")"
  | .not operand => do
      let text ← operand.emit dialect
      return "(NOT " ++ text ++ ")"
  | .function name distinct arguments => do
      let texts ← Expr.emitList dialect arguments
      return name ++ "(" ++ (if distinct then "DISTINCT " else "") ++ ", ".intercalate texts ++ ")"
  | .cast operand type => do
      let text ← operand.emit dialect
      return "CAST(" ++ text ++ " AS " ++ type ++ ")"
  | .withinGroup name arguments orderBy => do
      let texts ← Expr.emitList dialect arguments
      let key ← orderBy.emit dialect
      return name ++ "(" ++ ", ".intercalate texts ++ ") WITHIN GROUP (ORDER BY " ++ key ++ ")"
  | .rowNumber orderBy => do
      let keys ← Expr.emitTerms dialect orderBy
      return "ROW_NUMBER() OVER (ORDER BY " ++ ", ".intercalate keys ++ ")"

def Expr.emitList (dialect : Dialect) : List Expr → Emitter (List String)
  | [] => return []
  | expr :: rest => do
      let text ← expr.emit dialect
      let texts ← Expr.emitList dialect rest
      return text :: texts

def Expr.emitTerm (dialect : Dialect) : OrderTerm Expr → Emitter String
  | ⟨expr, direction, nullsLast⟩ => do
      let text ← expr.emit dialect
      return text ++ directionText direction ++ if nullsLast then " NULLS LAST" else ""

def Expr.emitTerms (dialect : Dialect) : List (OrderTerm Expr) → Emitter (List String)
  | [] => return []
  | term :: rest => do
      let text ← Expr.emitTerm dialect term
      let texts ← Expr.emitTerms dialect rest
      return text :: texts

end

def emitColumns (dialect : Dialect) : List (Expr × String) → Emitter (List String)
  | [] => return []
  | column :: rest => do
      let text ← column.1.emit dialect
      let texts ← emitColumns dialect rest
      return (text ++ " AS " ++ quoteName column.2) :: texts

def emitOptional (dialect : Dialect) (keyword : String) : Option Expr → Emitter (List String)
  | some expr => do
      let text ← expr.emit dialect
      return [keyword ++ text]
  | none => return []

def listClause (keyword : String) (items : List String) : List String :=
  if items.isEmpty then [] else [keyword ++ ", ".intercalate items]

def limitClause : Option Nat → List String
  | some count => ["LIMIT " ++ count.repr]
  | none => []

mutual

def Select.emitText (dialect : Dialect) : Select → Emitter String
  | ⟨columns, source, joins, filter, groupBy, having, orderBy, limit⟩ => do
      let returned ← emitColumns dialect columns
      let table ← Select.emitTable dialect source
      let joined ← Select.emitJoins dialect joins
      let filtered ← emitOptional dialect "WHERE " filter
      let grouped ← Expr.emitList dialect groupBy
      let kept ← emitOptional dialect "HAVING " having
      let sorted ← Expr.emitTerms dialect orderBy
      return " ".intercalate (
        ["SELECT " ++ ", ".intercalate returned, "FROM " ++ table] ++ joined ++ filtered ++
          listClause "GROUP BY " grouped ++ kept ++ listClause "ORDER BY " sorted ++
          limitClause limit)

def Select.emitTable (dialect : Dialect) : TableRef Select → Emitter String
  | .table name => return quoteName name
  | .derived query label => do
      let text ← query.emitText dialect
      return "(" ++ text ++ ") AS " ++ quoteName label

/-- Writes a join. A cross join does not write its condition. -/
def Select.emitJoin (dialect : Dialect) : JoinClause Select → Emitter String
  | ⟨kind, table, condition, _⟩ => do
      let joined ← Select.emitTable dialect table
      match kind, condition with
      | .leftOuter, some expr =>
          let text ← expr.emit dialect
          return "LEFT OUTER JOIN " ++ joined ++ " ON " ++ text
      | .leftOuter, none => return "LEFT OUTER JOIN " ++ joined ++ " ON 1 = 1"
      | .cross, _ => return "CROSS JOIN " ++ joined

def Select.emitJoins (dialect : Dialect) : List (JoinClause Select) → Emitter (List String)
  | [] => return []
  | join :: rest => do
      let text ← Select.emitJoin dialect join
      let texts ← Select.emitJoins dialect rest
      return text :: texts

end

structure Statement where
  sql : String
  params : List Value
  deriving DecidableEq

/-- The statement of a query in a dialect. -/
def Select.emit (dialect : Dialect) (select : Select) : Statement :=
  let (sql, params) := (select.emitText dialect).run []
  ⟨sql, params⟩

end SemanticQuery.Sql
