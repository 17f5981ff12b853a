import Mathlib.Data.List.Basic
import SemanticQuery.Sql.Emit

/-!
# Queries as fragments

A query is a list of fragments in textual order: fixed text, names, string constants and bound texts.
Writing a query gives the text of its fragments, in which the placeholders of bound texts are numbered
from left to right, and the bound texts as the parameters.  So the parameters, which are added while
the parts of a query are written, come in the order of the text.
-/

namespace SemanticQuery.Sql

inductive Fragment where
  /-- Keywords, punctuation, numbers, function and type names. -/
  | text (text : String)
  /-- The name of a table, a column or an alias. -/
  | name (name : String)
  | constant (text : String)
  /-- A text that is passed to the database beside the statement. -/
  | bound (text : String)
  deriving DecidableEq

def joined (separator : String) (parts : List (List Fragment)) : List Fragment :=
  [.text separator].intercalate parts

def valueFragment : Value → Fragment
  | .null => .text "NULL"
  | .boolean value => .text (if value then "TRUE" else "FALSE")
  | .integer value => .text value.repr
  | .float value => .text (Layout.sql.text value)
  | .text value => .bound value

mutual

def Expr.fragments : Expr → List Fragment
  | .column table name => [.name table, .text ".", .name name]
  | .value content => [valueFragment content]
  | .constant content => [.constant content]
  | .binary operator left right =>
      [.text "("] ++ left.fragments ++ [.text (" " ++ operator.symbol ++ " ")] ++ right.fragments ++
        [.text ")"]
  | .logical connective operands =>
      [.text "("] ++ joined connective.separator (Expr.fragmentsOfList operands) ++ [.text ")"]
  | .not operand => [.text "(NOT "] ++ operand.fragments ++ [.text ")"]
  | .function name distinct arguments =>
      [.text (name ++ "(" ++ if distinct then "DISTINCT " else "")] ++
        joined ", " (Expr.fragmentsOfList arguments) ++ [.text ")"]
  | .cast operand type => [.text "CAST("] ++ operand.fragments ++ [.text (" AS " ++ type ++ ")")]
  | .withinGroup name arguments orderBy =>
      [.text (name ++ "(")] ++ joined ", " (Expr.fragmentsOfList arguments) ++
        [.text ") WITHIN GROUP (ORDER BY "] ++ orderBy.fragments ++ [.text ")"]
  | .rowNumber orderBy =>
      [.text "ROW_NUMBER() OVER (ORDER BY "] ++ joined ", " (Expr.fragmentsOfTerms orderBy) ++
        [.text ")"]

def Expr.fragmentsOfList : List Expr → List (List Fragment)
  | [] => []
  | expr :: rest => expr.fragments :: Expr.fragmentsOfList rest

def Expr.fragmentsOfTerm : OrderTerm Expr → List Fragment
  | ⟨expr, direction, nullsLast⟩ =>
      expr.fragments ++ [.text (directionText direction ++ if nullsLast then " NULLS LAST" else "")]

def Expr.fragmentsOfTerms : List (OrderTerm Expr) → List (List Fragment)
  | [] => []
  | term :: rest => Expr.fragmentsOfTerm term :: Expr.fragmentsOfTerms rest

end

def columnFragments (column : Expr × String) : List Fragment :=
  column.1.fragments ++ [.text " AS ", .name column.2]

def optionalFragments (keyword : String) : Option Expr → List (List Fragment)
  | some expr => [.text keyword :: expr.fragments]
  | none => []

def listFragments (keyword : String) (items : List (List Fragment)) : List (List Fragment) :=
  if items.isEmpty then [] else [.text keyword :: joined ", " items]

def limitFragments : Option Nat → List (List Fragment)
  | some count => [[.text ("LIMIT " ++ count.repr)]]
  | none => []

mutual

def Select.fragments : Select → List Fragment
  | ⟨columns, source, joins, filter, groupBy, having, orderBy, limit⟩ =>
      joined " " (
        [.text "SELECT " :: joined ", " (columns.map columnFragments)] ++
        [.text "FROM " :: Select.fragmentsOfTable source] ++
        Select.fragmentsOfJoins joins ++
        optionalFragments "WHERE " filter ++
        listFragments "GROUP BY " (Expr.fragmentsOfList groupBy) ++
        optionalFragments "HAVING " having ++
        listFragments "ORDER BY " (Expr.fragmentsOfTerms orderBy) ++
        limitFragments limit)

def Select.fragmentsOfTable : TableRef Select → List Fragment
  | .table name => [.name name]
  | .derived query label => [.text "("] ++ query.fragments ++ [.text ") AS ", .name label]

def Select.fragmentsOfJoin : JoinClause Select → List Fragment
  | ⟨kind, table, condition, _⟩ =>
      match kind, condition with
      | .leftOuter, some expr =>
          [.text "LEFT OUTER JOIN "] ++ Select.fragmentsOfTable table ++ [.text " ON "] ++
            expr.fragments
      | .leftOuter, none =>
          [.text "LEFT OUTER JOIN "] ++ Select.fragmentsOfTable table ++ [.text " ON 1 = 1"]
      | .cross, _ => [.text "CROSS JOIN "] ++ Select.fragmentsOfTable table

def Select.fragmentsOfJoins : List (JoinClause Select) → List (List Fragment)
  | [] => []
  | join :: rest => Select.fragmentsOfJoin join :: Select.fragmentsOfJoins rest

end

/-- The texts of fragments; the next placeholder has the given position. -/
def renderFrom (dialect : Dialect) : Nat → List Fragment → List String
  | _, [] => []
  | position, .text text :: rest => text :: renderFrom dialect position rest
  | position, .name name :: rest => quoteName name :: renderFrom dialect position rest
  | position, .constant text :: rest => quoteConstant text :: renderFrom dialect position rest
  | position, .bound _ :: rest =>
      dialect.placeholder position :: renderFrom dialect (position + 1) rest

def boundTexts (fragments : List Fragment) : List String :=
  fragments.filterMap fun
    | .bound text => some text
    | _ => none

/-! ## Bound texts of fragments -/

@[simp]
theorem boundTexts_nil : boundTexts [] = [] := rfl

@[simp]
theorem boundTexts_append (first second : List Fragment) :
    boundTexts (first ++ second) = boundTexts first ++ boundTexts second :=
  List.filterMap_append

@[simp]
theorem boundTexts_text (text : String) (rest : List Fragment) :
    boundTexts (.text text :: rest) = boundTexts rest := rfl

@[simp]
theorem boundTexts_name (name : String) (rest : List Fragment) :
    boundTexts (.name name :: rest) = boundTexts rest := rfl

@[simp]
theorem boundTexts_constant (text : String) (rest : List Fragment) :
    boundTexts (.constant text :: rest) = boundTexts rest := rfl

@[simp]
theorem boundTexts_bound (text : String) (rest : List Fragment) :
    boundTexts (.bound text :: rest) = text :: boundTexts rest := rfl

/-- What is joined is written one part after the other. -/
theorem joined_cons (separator : String) (part : List Fragment) (parts : List (List Fragment)) :
    joined separator (part :: parts) = part ++ parts.flatMap (.text separator :: ·) := by
  induction parts generalizing part with
  | nil => simp [joined, List.intercalate]
  | cons next rest ih =>
      have step : joined separator (part :: next :: rest) =
          part ++ .text separator :: joined separator (next :: rest) := by
        simp [joined, List.intercalate, List.intersperse]
      rw [step, ih]
      simp

@[simp]
theorem boundTexts_joined (separator : String) (parts : List (List Fragment)) :
    boundTexts (joined separator parts) = parts.flatMap boundTexts := by
  cases parts with
  | nil => rfl
  | cons part rest =>
      rw [joined_cons, boundTexts_append, List.flatMap_cons]
      congr 1
      induction rest with
      | nil => rfl
      | cons next rest ih => simp [ih]

/-! ## The text of fragments -/

/-- Rendering goes on at the position after what was bound before. -/
theorem renderFrom_append (dialect : Dialect) (position : Nat) (first second : List Fragment) :
    renderFrom dialect position (first ++ second) =
      renderFrom dialect position first ++
        renderFrom dialect (position + (boundTexts first).length) second := by
  induction first generalizing position with
  | nil => rfl
  | cons fragment rest ih =>
      cases fragment with
      | bound text => simp [renderFrom, ih, Nat.add_assoc, Nat.add_comm 1]
      | text text | name name | constant text => simp [renderFrom, ih]

/-- The text of fragments behind others that bind so many texts. -/
def rendered (dialect : Dialect) (bound : Nat) (fragments : List Fragment) : String :=
  String.join (renderFrom dialect (bound + 1) fragments)

section Rendered

variable (dialect : Dialect) (bound : Nat)

@[simp]
theorem rendered_nil : rendered dialect bound [] = "" := rfl

@[simp]
theorem rendered_text (text : String) (rest : List Fragment) :
    rendered dialect bound (.text text :: rest) = text ++ rendered dialect bound rest :=
  String.join_cons

@[simp]
theorem rendered_name (name : String) (rest : List Fragment) :
    rendered dialect bound (.name name :: rest) = quoteName name ++ rendered dialect bound rest :=
  String.join_cons

@[simp]
theorem rendered_constant (text : String) (rest : List Fragment) :
    rendered dialect bound (.constant text :: rest) =
      quoteConstant text ++ rendered dialect bound rest :=
  String.join_cons

@[simp]
theorem rendered_bound (text : String) (rest : List Fragment) :
    rendered dialect bound (.bound text :: rest) =
      dialect.placeholder (bound + 1) ++ rendered dialect (bound + 1) rest :=
  String.join_cons

@[simp]
theorem rendered_append (first second : List Fragment) :
    rendered dialect bound (first ++ second) =
      rendered dialect bound first ++ rendered dialect (bound + (boundTexts first).length) second := by
  rw [rendered, renderFrom_append, String.join_append, Nat.add_right_comm]
  rfl

end Rendered

def renderedEach (dialect : Dialect) : Nat → List (List Fragment) → List String
  | _, [] => []
  | bound, part :: rest =>
      rendered dialect bound part :: renderedEach dialect (bound + (boundTexts part).length) rest

theorem renderedEach_append (dialect : Dialect) (bound : Nat) (first second : List (List Fragment)) :
    renderedEach dialect bound (first ++ second) =
      renderedEach dialect bound first ++
        renderedEach dialect (bound + (first.flatMap boundTexts).length) second := by
  induction first generalizing bound with
  | nil => rfl
  | cons part rest ih => simp [renderedEach, ih, Nat.add_assoc]

/-- Separators bind nothing. -/
@[simp]
theorem intercalate_renderedEach (dialect : Dialect) (bound : Nat) (separator : String)
    (parts : List (List Fragment)) :
    separator.intercalate (renderedEach dialect bound parts) =
      rendered dialect bound (joined separator parts) := by
  induction parts generalizing bound with
  | nil => rfl
  | cons part rest ih =>
      cases rest with
      | nil => simp [renderedEach, joined_cons]
      | cons next rest =>
          have whole : joined separator (part :: next :: rest) =
              part ++ .text separator :: joined separator (next :: rest) := by
            simp [joined_cons]
          rw [whole, renderedEach, renderedEach, String.intercalate_cons_cons, ← renderedEach, ih]
          simp [String.append_assoc]

/-! ## Writing fragments -/

/-- A computation writes fragments: it gives their text, with placeholders numbered behind the
parameters that are there, and adds the texts that they bind. -/
def Writes (dialect : Dialect) (emitter : Emitter String) (fragments : List Fragment) : Prop :=
  ∀ params, emitter.run params =
    pure (rendered dialect params.length fragments, params ++ (boundTexts fragments).map .text)

def WritesEach (dialect : Dialect) (emitter : Emitter (List String)) (parts : List (List Fragment)) :
    Prop :=
  ∀ params, emitter.run params =
    pure (renderedEach dialect params.length parts, params ++ (parts.flatMap boundTexts).map .text)

theorem writesEach_nil (dialect : Dialect) : WritesEach dialect (return []) [] := by
  intro params
  simp [renderedEach]

theorem WritesEach.cons {dialect : Dialect} {first : Emitter String} {part : List Fragment}
    {later : Emitter (List String)} {parts : List (List Fragment)} (own : Writes dialect first part)
    (others : WritesEach dialect later parts) :
    WritesEach dialect (do
      let text ← first
      let texts ← later
      return text :: texts) (part :: parts) := by
  intro params
  simp [own params, others _, renderedEach]

theorem writes_emitValue (dialect : Dialect) (content : Value) :
    Writes dialect (emitValue dialect content) [valueFragment content] := by
  intro params
  cases content <;> simp [emitValue, valueFragment]

mutual

/-- An expression is written as its fragments. -/
theorem Expr.writes_emit (dialect : Dialect) : ∀ expr : Expr,
    Writes dialect (expr.emit dialect) expr.fragments
  | .column table name => by
      intro params
      simp [Expr.emit, Expr.fragments, String.append_assoc]
  | .value content => by
      rw [Expr.emit, Expr.fragments]
      exact writes_emitValue dialect content
  | .constant content => by
      intro params
      simp [Expr.emit, Expr.fragments]
  | .binary operator left right => by
      intro params
      simp [Expr.emit, Expr.fragments, left.writes_emit dialect params,
        right.writes_emit dialect _, String.append_assoc]
  | .logical connective operands => by
      intro params
      simp [Expr.emit, Expr.fragments, Expr.writesEach_emitList dialect operands params,
        String.append_assoc]
  | .not operand => by
      intro params
      simp [Expr.emit, Expr.fragments, operand.writes_emit dialect params, String.append_assoc]
  | .function name distinct arguments => by
      intro params
      simp [Expr.emit, Expr.fragments, Expr.writesEach_emitList dialect arguments params,
        String.append_assoc]
  | .cast operand type => by
      intro params
      simp [Expr.emit, Expr.fragments, operand.writes_emit dialect params, String.append_assoc]
  | .withinGroup name arguments orderBy => by
      intro params
      simp [Expr.emit, Expr.fragments, Expr.writesEach_emitList dialect arguments params,
        orderBy.writes_emit dialect _, String.append_assoc]
  | .rowNumber orderBy => by
      intro params
      simp [Expr.emit, Expr.fragments, Expr.writesEach_emitTerms dialect orderBy params,
        String.append_assoc]

theorem Expr.writesEach_emitList (dialect : Dialect) : ∀ exprs : List Expr,
    WritesEach dialect (Expr.emitList dialect exprs) (Expr.fragmentsOfList exprs)
  | [] => writesEach_nil dialect
  | expr :: rest => WritesEach.cons (expr.writes_emit dialect) (Expr.writesEach_emitList dialect rest)

theorem Expr.writes_emitTerm (dialect : Dialect) : ∀ term : OrderTerm Expr,
    Writes dialect (Expr.emitTerm dialect term) (Expr.fragmentsOfTerm term)
  | ⟨expr, direction, nullsLast⟩ => by
      intro params
      simp [Expr.emitTerm, Expr.fragmentsOfTerm, expr.writes_emit dialect params,
        String.append_assoc]

theorem Expr.writesEach_emitTerms (dialect : Dialect) : ∀ terms : List (OrderTerm Expr),
    WritesEach dialect (Expr.emitTerms dialect terms) (Expr.fragmentsOfTerms terms)
  | [] => writesEach_nil dialect
  | term :: rest =>
      WritesEach.cons (Expr.writes_emitTerm dialect term) (Expr.writesEach_emitTerms dialect rest)

end

theorem writesEach_emitColumns (dialect : Dialect) (columns : List (Expr × String)) :
    WritesEach dialect (emitColumns dialect columns) (columns.map columnFragments) := by
  induction columns with
  | nil => exact writesEach_nil dialect
  | cons column rest ih =>
      intro params
      simp [emitColumns, columnFragments, column.1.writes_emit dialect params, ih _, renderedEach,
        String.append_assoc]

theorem writesEach_emitOptional (dialect : Dialect) (keyword : String) (clause : Option Expr) :
    WritesEach dialect (emitOptional dialect keyword clause) (optionalFragments keyword clause) := by
  cases clause with
  | none => exact writesEach_nil dialect
  | some expr =>
      intro params
      simp [emitOptional, optionalFragments, expr.writes_emit dialect params, renderedEach]

theorem renderedEach_listFragments (dialect : Dialect) (bound : Nat) (keyword : String)
    (items : List (List Fragment)) :
    renderedEach dialect bound (listFragments keyword items) =
      listClause keyword (renderedEach dialect bound items) := by
  cases items with
  | nil => rfl
  | cons item rest =>
      have listed : (renderedEach dialect bound (item :: rest)).isEmpty = false := rfl
      rw [listClause, listed, intercalate_renderedEach]
      simp [listFragments, renderedEach]

theorem renderedEach_limitFragments (dialect : Dialect) (bound : Nat) (limit : Option Nat) :
    renderedEach dialect bound (limitFragments limit) = limitClause limit := by
  cases limit with
  | none => rfl
  | some count => simp [limitClause, limitFragments, renderedEach]

theorem flatMap_boundTexts_listFragments (keyword : String) (items : List (List Fragment)) :
    (listFragments keyword items).flatMap boundTexts = items.flatMap boundTexts := by
  cases items <;> simp [listFragments]

theorem flatMap_boundTexts_limitFragments (limit : Option Nat) :
    (limitFragments limit).flatMap boundTexts = [] := by
  cases limit <;> rfl

mutual

/-- A query is written as its fragments, clause by clause. -/
theorem Select.writes_emitText (dialect : Dialect) : ∀ select : Select,
    Writes dialect (select.emitText dialect) select.fragments
  | ⟨columns, source, joins, filter, groupBy, having, orderBy, limit⟩ => by
      intro params
      simp only [Select.emitText, StateT.run_bind, StateT.run_pure, pure_bind,
        writesEach_emitColumns dialect columns _, Select.writes_emitTable dialect source _,
        Select.writesEach_emitJoins dialect joins _, writesEach_emitOptional dialect _ _ _,
        Expr.writesEach_emitList dialect groupBy _, Expr.writesEach_emitTerms dialect orderBy _]
      rw [Select.fragments, ← intercalate_renderedEach]
      simp [renderedEach_append, renderedEach, renderedEach_listFragments,
        renderedEach_limitFragments, flatMap_boundTexts_listFragments,
        flatMap_boundTexts_limitFragments, Nat.add_assoc]

theorem Select.writes_emitTable (dialect : Dialect) : ∀ table : TableRef Select,
    Writes dialect (Select.emitTable dialect table) (Select.fragmentsOfTable table)
  | .table name => by
      intro params
      simp [Select.emitTable, Select.fragmentsOfTable]
  | .derived query label => by
      intro params
      simp [Select.emitTable, Select.fragmentsOfTable, query.writes_emitText dialect params,
        String.append_assoc]

theorem Select.writes_emitJoin (dialect : Dialect) : ∀ join : JoinClause Select,
    Writes dialect (Select.emitJoin dialect join) (Select.fragmentsOfJoin join)
  | ⟨kind, table, condition, relation⟩ => by
      have source := Select.writes_emitTable dialect table
      intro params
      cases kind with
      | leftOuter =>
          cases condition with
          | none => simp [Select.emitJoin, Select.fragmentsOfJoin, source params, String.append_assoc]
          | some expr =>
              simp [Select.emitJoin, Select.fragmentsOfJoin, source params,
                expr.writes_emit dialect _, String.append_assoc]
      | cross => simp [Select.emitJoin, Select.fragmentsOfJoin, source params]

theorem Select.writesEach_emitJoins (dialect : Dialect) : ∀ joins : List (JoinClause Select),
    WritesEach dialect (Select.emitJoins dialect joins) (Select.fragmentsOfJoins joins)
  | [] => writesEach_nil dialect
  | join :: rest =>
      WritesEach.cons (Select.writes_emitJoin dialect join) (Select.writesEach_emitJoins dialect rest)

end

/-- A statement is the text of the fragments of its query, with what they bind. -/
theorem Select.emit_eq (dialect : Dialect) (select : Select) :
    select.emit dialect =
      ⟨String.join (renderFrom dialect 1 select.fragments),
        (boundTexts select.fragments).map .text⟩ := by
  rw [Select.emit, select.writes_emitText dialect []]
  rfl

end SemanticQuery.Sql
