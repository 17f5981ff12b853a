import SemanticQuery.Proofs.Sql.Fragments

/-!
# Bound texts

The text leaves of a query never reach the SQL text: it is the same for all queries that differ in
the contents of these leaves only.  The parameters are the leaves in the order in which they are
written, and the placeholder of each stands where a constant in place of the leaf would be written.
-/

namespace SemanticQuery.Sql

/-! ## Text leaves -/

def textOfValue : Value → List String
  | .text content => [content]
  | _ => []

mutual

def Expr.texts : Expr → List String
  | .column .. | .constant _ => []
  | .value content => textOfValue content
  | .binary _ left right => left.texts ++ right.texts
  | .logical _ operands => Expr.textsOfList operands
  | .not operand => operand.texts
  | .function _ _ arguments => Expr.textsOfList arguments
  | .cast operand _ => operand.texts
  | .withinGroup _ arguments orderBy => Expr.textsOfList arguments ++ orderBy.texts
  | .rowNumber orderBy => Expr.textsOfTerms orderBy

def Expr.textsOfList : List Expr → List String
  | [] => []
  | expr :: rest => expr.texts ++ Expr.textsOfList rest

def Expr.textsOfTerm : OrderTerm Expr → List String
  | ⟨expr, _, _⟩ => expr.texts

def Expr.textsOfTerms : List (OrderTerm Expr) → List String
  | [] => []
  | term :: rest => Expr.textsOfTerm term ++ Expr.textsOfTerms rest

end

/-- The text leaves of the condition of a join. A cross join does not use its condition. -/
def conditionTexts : JoinKind → Option Expr → List String
  | .leftOuter, some expr => expr.texts
  | .leftOuter, none | .cross, _ => []

mutual

/-- The text leaves of a query, clause by clause: returned columns, source, joins, WHERE, GROUP BY,
HAVING and ORDER BY. -/
def Select.texts : Select → List String
  | ⟨columns, source, joins, filter, groupBy, having, orderBy, _⟩ =>
      columns.flatMap (fun column => column.1.texts) ++ Select.textsOfTable source ++
        Select.textsOfJoins joins ++ (filter.map Expr.texts).getD [] ++
        Expr.textsOfList groupBy ++ (having.map Expr.texts).getD [] ++ Expr.textsOfTerms orderBy

def Select.textsOfTable : TableRef Select → List String
  | .table _ => []
  | .derived query _ => query.texts

def Select.textsOfJoin : JoinClause Select → List String
  | ⟨kind, table, condition, _⟩ => Select.textsOfTable table ++ conditionTexts kind condition

def Select.textsOfJoins : List (JoinClause Select) → List String
  | [] => []
  | join :: rest => Select.textsOfJoin join ++ Select.textsOfJoins rest

end

/-! ## Other things in place of text leaves -/

def mapTextOfValue (f : String → Expr) : Value → Expr
  | .text content => f content
  | other => .value other

section MapTexts

variable (f : String → Expr)

mutual

def Expr.mapTexts : Expr → Expr
  | .column table name => .column table name
  | .value content => mapTextOfValue f content
  | .constant content => .constant content
  | .binary operator left right => .binary operator left.mapTexts right.mapTexts
  | .logical connective operands => .logical connective (Expr.mapTextsOfList operands)
  | .not operand => .not operand.mapTexts
  | .function name distinct arguments => .function name distinct (Expr.mapTextsOfList arguments)
  | .cast operand type => .cast operand.mapTexts type
  | .withinGroup name arguments orderBy =>
      .withinGroup name (Expr.mapTextsOfList arguments) orderBy.mapTexts
  | .rowNumber orderBy => .rowNumber (Expr.mapTextsOfTerms orderBy)

def Expr.mapTextsOfList : List Expr → List Expr
  | [] => []
  | expr :: rest => expr.mapTexts :: Expr.mapTextsOfList rest

def Expr.mapTextsOfTerm : OrderTerm Expr → OrderTerm Expr
  | ⟨expr, direction, nullsLast⟩ => ⟨expr.mapTexts, direction, nullsLast⟩

def Expr.mapTextsOfTerms : List (OrderTerm Expr) → List (OrderTerm Expr)
  | [] => []
  | term :: rest => Expr.mapTextsOfTerm term :: Expr.mapTextsOfTerms rest

end

mutual

def Select.mapTexts : Select → Select
  | ⟨columns, source, joins, filter, groupBy, having, orderBy, limit⟩ =>
      ⟨columns.map fun column => (column.1.mapTexts f, column.2), Select.mapTextsOfTable source,
        Select.mapTextsOfJoins joins, filter.map (Expr.mapTexts f), Expr.mapTextsOfList f groupBy,
        having.map (Expr.mapTexts f), Expr.mapTextsOfTerms f orderBy, limit⟩

def Select.mapTextsOfTable : TableRef Select → TableRef Select
  | .table name => .table name
  | .derived query label => .derived query.mapTexts label

def Select.mapTextsOfJoin : JoinClause Select → JoinClause Select
  | ⟨kind, table, condition, relation⟩ =>
      ⟨kind, Select.mapTextsOfTable table, condition.map (Expr.mapTexts f), relation⟩

def Select.mapTextsOfJoins : List (JoinClause Select) → List (JoinClause Select)
  | [] => []
  | join :: rest => Select.mapTextsOfJoin join :: Select.mapTextsOfJoins rest

end

end MapTexts

def Select.blank (select : Select) : Select :=
  select.mapTexts fun _ => .value (.text "")

def Select.inlined (select : Select) : Select :=
  select.mapTexts .constant

/-! ## Bound texts of queries -/

theorem boundTexts_valueFragment (content : Value) :
    boundTexts [valueFragment content] = textOfValue content := by
  cases content <;> rfl

mutual

/-- The fragments of an expression bind its text leaves in order. -/
theorem Expr.boundTexts_fragments : ∀ expr : Expr, boundTexts expr.fragments = expr.texts
  | .column table name => rfl
  | .value content => boundTexts_valueFragment content
  | .constant content => rfl
  | .binary operator left right => by
      simp [Expr.fragments, Expr.texts, left.boundTexts_fragments, right.boundTexts_fragments]
  | .logical connective operands => by
      simp [Expr.fragments, Expr.texts, Expr.boundTexts_fragmentsOfList operands]
  | .not operand => by simp [Expr.fragments, Expr.texts, operand.boundTexts_fragments]
  | .function name distinct arguments => by
      simp [Expr.fragments, Expr.texts, Expr.boundTexts_fragmentsOfList arguments]
  | .cast operand type => by simp [Expr.fragments, Expr.texts, operand.boundTexts_fragments]
  | .withinGroup name arguments orderBy => by
      simp [Expr.fragments, Expr.texts, Expr.boundTexts_fragmentsOfList arguments,
        orderBy.boundTexts_fragments]
  | .rowNumber orderBy => by
      simp [Expr.fragments, Expr.texts, Expr.boundTexts_fragmentsOfTerms orderBy]

theorem Expr.boundTexts_fragmentsOfList : ∀ exprs : List Expr,
    (Expr.fragmentsOfList exprs).flatMap boundTexts = Expr.textsOfList exprs
  | [] => rfl
  | expr :: rest => by
      simp [Expr.fragmentsOfList, Expr.textsOfList, expr.boundTexts_fragments,
        Expr.boundTexts_fragmentsOfList rest]

theorem Expr.boundTexts_fragmentsOfTerm : ∀ term : OrderTerm Expr,
    boundTexts (Expr.fragmentsOfTerm term) = Expr.textsOfTerm term
  | ⟨expr, direction, nullsLast⟩ => by
      simp [Expr.fragmentsOfTerm, Expr.textsOfTerm, expr.boundTexts_fragments]

theorem Expr.boundTexts_fragmentsOfTerms : ∀ terms : List (OrderTerm Expr),
    (Expr.fragmentsOfTerms terms).flatMap boundTexts = Expr.textsOfTerms terms
  | [] => rfl
  | term :: rest => by
      simp [Expr.fragmentsOfTerms, Expr.textsOfTerms, Expr.boundTexts_fragmentsOfTerm term,
        Expr.boundTexts_fragmentsOfTerms rest]

end

theorem flatMap_boundTexts_optionalFragments (keyword : String) (clause : Option Expr) :
    (optionalFragments keyword clause).flatMap boundTexts = (clause.map Expr.texts).getD [] := by
  cases clause with
  | none => rfl
  | some expr => simp [optionalFragments, expr.boundTexts_fragments]

mutual

/-- The fragments of a query bind its text leaves in order. -/
theorem Select.boundTexts_fragments : ∀ select : Select,
    boundTexts select.fragments = select.texts
  | ⟨columns, source, joins, filter, groupBy, having, orderBy, limit⟩ => by
      have returned : columns.flatMap (fun column => boundTexts (columnFragments column)) =
          columns.flatMap fun column => column.1.texts := by
        simp [columnFragments, Expr.boundTexts_fragments]
      simp [Select.fragments, Select.texts, flatMap_boundTexts_optionalFragments,
        flatMap_boundTexts_listFragments, flatMap_boundTexts_limitFragments,
        Expr.boundTexts_fragmentsOfList, Expr.boundTexts_fragmentsOfTerms, List.flatMap_map,
        returned, Select.boundTexts_fragmentsOfTable source,
        Select.boundTexts_fragmentsOfJoins joins]

theorem Select.boundTexts_fragmentsOfTable : ∀ table : TableRef Select,
    boundTexts (Select.fragmentsOfTable table) = Select.textsOfTable table
  | .table name => rfl
  | .derived query label => by
      simp [Select.fragmentsOfTable, Select.textsOfTable, query.boundTexts_fragments]

theorem Select.boundTexts_fragmentsOfJoin : ∀ join : JoinClause Select,
    boundTexts (Select.fragmentsOfJoin join) = Select.textsOfJoin join
  | ⟨kind, table, condition, relation⟩ => by
      have source := Select.boundTexts_fragmentsOfTable table
      cases kind with
      | leftOuter =>
          cases condition with
          | none => simp [Select.fragmentsOfJoin, Select.textsOfJoin, conditionTexts, source]
          | some expr =>
              simp [Select.fragmentsOfJoin, Select.textsOfJoin, conditionTexts, source,
                expr.boundTexts_fragments]
      | cross => simp [Select.fragmentsOfJoin, Select.textsOfJoin, conditionTexts, source]

theorem Select.boundTexts_fragmentsOfJoins : ∀ joins : List (JoinClause Select),
    (Select.fragmentsOfJoins joins).flatMap boundTexts = Select.textsOfJoins joins
  | [] => rfl
  | join :: rest => by
      simp [Select.fragmentsOfJoins, Select.textsOfJoins, Select.boundTexts_fragmentsOfJoin join,
        Select.boundTexts_fragmentsOfJoins rest]

end

/-! ## Fragments of other queries -/

/-- The fragments of what stands in place of a bound text, and a fragment that is no bound text. -/
def Fragment.fill (f : String → Expr) : Fragment → List Fragment
  | .bound content => (f content).fragments
  | other => [other]

section Fill

variable (f : String → Expr)

@[simp]
theorem flatMap_fill_joined (separator : String) (parts : List (List Fragment)) :
    (joined separator parts).flatMap (Fragment.fill f) =
      joined separator (parts.map (List.flatMap (Fragment.fill f))) := by
  cases parts with
  | nil => rfl
  | cons part rest =>
      rw [List.map_cons, joined_cons, joined_cons, List.flatMap_append]
      congr 1
      induction rest with
      | nil => rfl
      | cons next rest ih => simp [ih, Fragment.fill]

theorem fragments_mapTextOfValue (content : Value) :
    (mapTextOfValue f content).fragments = (valueFragment content).fill f := by
  cases content <;> rfl

mutual

/-- What stands in place of the text leaves is written in their places. -/
theorem Expr.fragments_mapTexts : ∀ expr : Expr,
    (expr.mapTexts f).fragments = expr.fragments.flatMap (Fragment.fill f)
  | .column table name => rfl
  | .value content => by
      simp [Expr.mapTexts, Expr.fragments, fragments_mapTextOfValue]
  | .constant content => rfl
  | .binary operator left right => by
      simp [Expr.mapTexts, Expr.fragments, left.fragments_mapTexts, right.fragments_mapTexts,
        Fragment.fill]
  | .logical connective operands => by
      simp [Expr.mapTexts, Expr.fragments, Expr.fragmentsOfList_mapTexts operands, Fragment.fill]
  | .not operand => by
      simp [Expr.mapTexts, Expr.fragments, operand.fragments_mapTexts, Fragment.fill]
  | .function name distinct arguments => by
      simp [Expr.mapTexts, Expr.fragments, Expr.fragmentsOfList_mapTexts arguments, Fragment.fill]
  | .cast operand type => by
      simp [Expr.mapTexts, Expr.fragments, operand.fragments_mapTexts, Fragment.fill]
  | .withinGroup name arguments orderBy => by
      simp [Expr.mapTexts, Expr.fragments, Expr.fragmentsOfList_mapTexts arguments,
        orderBy.fragments_mapTexts, Fragment.fill]
  | .rowNumber orderBy => by
      simp [Expr.mapTexts, Expr.fragments, Expr.fragmentsOfTerms_mapTexts orderBy, Fragment.fill]

theorem Expr.fragmentsOfList_mapTexts : ∀ exprs : List Expr,
    Expr.fragmentsOfList (Expr.mapTextsOfList f exprs) =
      (Expr.fragmentsOfList exprs).map (List.flatMap (Fragment.fill f))
  | [] => rfl
  | expr :: rest => by
      simp [Expr.mapTextsOfList, Expr.fragmentsOfList, expr.fragments_mapTexts,
        Expr.fragmentsOfList_mapTexts rest]

theorem Expr.fragmentsOfTerm_mapTexts : ∀ term : OrderTerm Expr,
    Expr.fragmentsOfTerm (Expr.mapTextsOfTerm f term) =
      (Expr.fragmentsOfTerm term).flatMap (Fragment.fill f)
  | ⟨expr, direction, nullsLast⟩ => by
      simp [Expr.mapTextsOfTerm, Expr.fragmentsOfTerm, expr.fragments_mapTexts, Fragment.fill]

theorem Expr.fragmentsOfTerms_mapTexts : ∀ terms : List (OrderTerm Expr),
    Expr.fragmentsOfTerms (Expr.mapTextsOfTerms f terms) =
      (Expr.fragmentsOfTerms terms).map (List.flatMap (Fragment.fill f))
  | [] => rfl
  | term :: rest => by
      simp [Expr.mapTextsOfTerms, Expr.fragmentsOfTerms, Expr.fragmentsOfTerm_mapTexts term,
        Expr.fragmentsOfTerms_mapTexts rest]

end

theorem optionalFragments_mapTexts (keyword : String) (clause : Option Expr) :
    optionalFragments keyword (clause.map (Expr.mapTexts f)) =
      (optionalFragments keyword clause).map (List.flatMap (Fragment.fill f)) := by
  cases clause with
  | none => rfl
  | some expr => simp [optionalFragments, expr.fragments_mapTexts, Fragment.fill]

theorem listFragments_map_fill (keyword : String) (items : List (List Fragment)) :
    listFragments keyword (items.map (List.flatMap (Fragment.fill f))) =
      (listFragments keyword items).map (List.flatMap (Fragment.fill f)) := by
  cases items <;> simp [listFragments, Fragment.fill]

theorem map_fill_limitFragments (limit : Option Nat) :
    (limitFragments limit).map (List.flatMap (Fragment.fill f)) = limitFragments limit := by
  cases limit <;> rfl

mutual

theorem Select.fragments_mapTexts : ∀ select : Select,
    (select.mapTexts f).fragments = select.fragments.flatMap (Fragment.fill f)
  | ⟨columns, source, joins, filter, groupBy, having, orderBy, limit⟩ => by
      have returned (column : Expr × String) : columnFragments (column.1.mapTexts f, column.2) =
          (columnFragments column).flatMap (Fragment.fill f) := by
        simp [columnFragments, column.1.fragments_mapTexts, Fragment.fill]
      simp [Select.mapTexts, Select.fragments, Expr.fragmentsOfList_mapTexts,
        Expr.fragmentsOfTerms_mapTexts, optionalFragments_mapTexts, listFragments_map_fill,
        map_fill_limitFragments, Fragment.fill, Select.fragmentsOfTable_mapTexts source,
        Select.fragmentsOfJoins_mapTexts joins, Function.comp_def, returned]

theorem Select.fragmentsOfTable_mapTexts : ∀ table : TableRef Select,
    Select.fragmentsOfTable (Select.mapTextsOfTable f table) =
      (Select.fragmentsOfTable table).flatMap (Fragment.fill f)
  | .table name => rfl
  | .derived query label => by
      simp [Select.mapTextsOfTable, Select.fragmentsOfTable, query.fragments_mapTexts,
        Fragment.fill]

theorem Select.fragmentsOfJoin_mapTexts : ∀ join : JoinClause Select,
    Select.fragmentsOfJoin (Select.mapTextsOfJoin f join) =
      (Select.fragmentsOfJoin join).flatMap (Fragment.fill f)
  | ⟨kind, table, condition, relation⟩ => by
      have source := Select.fragmentsOfTable_mapTexts table
      cases kind with
      | leftOuter =>
          cases condition with
          | none => simp [Select.mapTextsOfJoin, Select.fragmentsOfJoin, source, Fragment.fill]
          | some expr =>
              simp [Select.mapTextsOfJoin, Select.fragmentsOfJoin, source, expr.fragments_mapTexts,
                Fragment.fill]
      | cross => simp [Select.mapTextsOfJoin, Select.fragmentsOfJoin, source, Fragment.fill]

theorem Select.fragmentsOfJoins_mapTexts : ∀ joins : List (JoinClause Select),
    Select.fragmentsOfJoins (Select.mapTextsOfJoins f joins) =
      (Select.fragmentsOfJoins joins).map (List.flatMap (Fragment.fill f))
  | [] => rfl
  | join :: rest => by
      simp [Select.mapTextsOfJoins, Select.fragmentsOfJoins, Select.fragmentsOfJoin_mapTexts join,
        Select.fragmentsOfJoins_mapTexts rest]

end

end Fill

/-! ## Fixed text -/

def prepended (text : String) : List String → List String
  | [] => [text]
  | piece :: pieces => (text ++ piece) :: pieces

def withMarks : List String → List String → String
  | [], marks => String.join marks
  | pieces, [] => String.join pieces
  | piece :: pieces, mark :: marks => piece ++ mark ++ withMarks pieces marks

/-- The fixed text around bound texts: what stands before the first, between each two and behind the
last. -/
def fixedPieces : List Fragment → List String
  | [] => [""]
  | .bound _ :: rest => "" :: fixedPieces rest
  | .text text :: rest => prepended text (fixedPieces rest)
  | .name name :: rest => prepended (quoteName name) (fixedPieces rest)
  | .constant text :: rest => prepended (quoteConstant text) (fixedPieces rest)

theorem withMarks_prepended (text : String) (pieces marks : List String) :
    withMarks (prepended text pieces) marks = text ++ withMarks pieces marks := by
  cases pieces <;> cases marks <;> simp [prepended, withMarks, String.append_assoc]

theorem withMarks_fresh (pieces : List String) (mark : String) (marks : List String) :
    withMarks ("" :: pieces) (mark :: marks) = mark ++ withMarks pieces marks := by
  simp [withMarks]

@[simp]
theorem length_prepended (text : String) (pieces : List String) :
    (prepended text pieces).length = max 1 pieces.length := by
  cases pieces <;> simp [prepended]

theorem length_fixedPieces (fragments : List Fragment) :
    (fixedPieces fragments).length = (boundTexts fragments).length + 1 := by
  induction fragments with
  | nil => rfl
  | cons fragment rest ih => cases fragment <;> simp [fixedPieces, ih]

/-- Fragments are rendered as their fixed text with placeholders for what they bind. -/
theorem rendered_eq_withMarks (dialect : Dialect) (bound : Nat) (fragments : List Fragment) :
    rendered dialect bound fragments =
      withMarks (fixedPieces fragments)
        ((List.range' (bound + 1) (boundTexts fragments).length).map dialect.placeholder) := by
  induction fragments generalizing bound with
  | nil => rfl
  | cons fragment rest ih =>
      cases fragment with
      | bound text => simp [fixedPieces, withMarks_fresh, ih, List.range'_succ]
      | text text | name text | constant text => simp [fixedPieces, withMarks_prepended, ih]

/-- Constants in place of bound texts stand where the placeholders stand. -/
theorem rendered_fill_constant (dialect : Dialect) (bound : Nat) (fragments : List Fragment) :
    rendered dialect bound (fragments.flatMap (Fragment.fill .constant)) =
      withMarks (fixedPieces fragments) ((boundTexts fragments).map quoteConstant) := by
  induction fragments with
  | nil => rfl
  | cons fragment rest ih =>
      cases fragment with
      | bound text => simp [Fragment.fill, Expr.fragments, fixedPieces, withMarks_fresh, ih]
      | text text | name text | constant text =>
          simp [Fragment.fill, fixedPieces, withMarks_prepended, ih]

/-- The fixed text does not depend on what is bound. -/
theorem fixedPieces_fill_text (fragments : List Fragment) :
    fixedPieces (fragments.flatMap (Fragment.fill fun _ => .value (.text ""))) =
      fixedPieces fragments := by
  induction fragments with
  | nil => rfl
  | cons fragment rest ih =>
      cases fragment <;>
        simp [Fragment.fill, Expr.fragments, valueFragment, fixedPieces, ih]

theorem fixedPieces_of_blank_eq {first second : Select} (same : first.blank = second.blank) :
    fixedPieces first.fragments = fixedPieces second.fragments := by
  have blanked (select : Select) :
      fixedPieces select.blank.fragments = fixedPieces select.fragments := by
    rw [Select.blank, select.fragments_mapTexts, fixedPieces_fill_text]
  rw [← blanked first, same, blanked second]

theorem Select.sql_emit (dialect : Dialect) (select : Select) :
    (select.emit dialect).sql =
      withMarks (fixedPieces select.fragments)
        ((List.range' 1 select.texts.length).map dialect.placeholder) := by
  rw [select.emit_eq, ← select.boundTexts_fragments]
  exact rendered_eq_withMarks dialect 0 select.fragments

theorem Select.sql_emit_inlined (dialect : Dialect) (select : Select) :
    (select.inlined.emit dialect).sql =
      withMarks (fixedPieces select.fragments) (select.texts.map quoteConstant) := by
  rw [Select.emit_eq, Select.inlined, select.fragments_mapTexts, ← select.boundTexts_fragments]
  exact rendered_fill_constant dialect 0 select.fragments

/-- Queries that differ in the contents of their text leaves only are written in the same way.  The
parameters of a statement are the text leaves of its query in the order in which they are written: the
fixed text around them does not depend on their contents, and the placeholder with the number of a leaf
stands where the leaf would be written as a constant. -/
theorem emit_binds_texts (dialect : Dialect) (select : Select) :
    (∀ other : Select, other.blank = select.blank →
      (other.emit dialect).sql = (select.emit dialect).sql) ∧
    (select.emit dialect).params = select.texts.map .text ∧
    (∃ pieces : List String, pieces.length = select.texts.length + 1 ∧
      ∀ other : Select, other.blank = select.blank →
        (other.emit dialect).sql =
            withMarks pieces ((List.range' 1 select.texts.length).map dialect.placeholder) ∧
          (other.inlined.emit dialect).sql = withMarks pieces (other.texts.map quoteConstant)) ∧
    ∀ position, Dialect.placeholder .postgres position = "$" ++ position.repr := by
  have pieces_length (query : Select) :
      (fixedPieces query.fragments).length = query.texts.length + 1 := by
    rw [length_fixedPieces, query.boundTexts_fragments]
  have sql_eq (other : Select) (same : other.blank = select.blank) :
      (other.emit dialect).sql = (select.emit dialect).sql := by
    have pieces := fixedPieces_of_blank_eq same
    have lengths : other.texts.length = select.texts.length := by
      have equal := pieces_length other
      rw [pieces, pieces_length select] at equal
      omega
    rw [other.sql_emit, select.sql_emit, pieces, lengths]
  refine ⟨sql_eq, ?_, ⟨fixedPieces select.fragments, pieces_length select, ?_⟩, fun _ => rfl⟩
  · rw [select.emit_eq, select.boundTexts_fragments]
  · intro other same
    refine ⟨(sql_eq other same).trans (select.sql_emit dialect), ?_⟩
    rw [other.sql_emit_inlined, fixedPieces_of_blank_eq same]

/-- People of a name, joined to the badges of one colour. -/
def namedPeople (name colour : String) : Select where
  columns := [(.column "person" "age", "age")]
  source := .table "person"
  joins := [{
    kind := .leftOuter
    table := .table "badge"
    condition := some (.binary .equal (.column "badge" "colour") (.value (.text colour)))
    relation := none }]
  filter := some (.binary .equal (.column "person" "name") (.value (.text name)))

/-- A text that looks like SQL is bound like any other, after the one in the join before it. -/
theorem emit_binds_texts_namedPeople :
    ((namedPeople "' OR 1 = 1" "red").emit .postgres).sql =
        ((namedPeople "Ann" "blue").emit .postgres).sql ∧
      ((namedPeople "Ann" "blue").emit .postgres).sql =
        "SELECT \"person\".\"age\" AS \"age\" FROM \"person\" LEFT OUTER JOIN \"badge\" ON " ++
          "(\"badge\".\"colour\" = $1) WHERE (\"person\".\"name\" = $2)" ∧
      ((namedPeople "Ann" "blue").emit .postgres).params = [.text "blue", .text "Ann"] := by
  have binds := emit_binds_texts .postgres (namedPeople "Ann" "blue")
  exact ⟨binds.1 (namedPeople "' OR 1 = 1" "red") rfl, by decide +kernel, binds.2.1⟩

end SemanticQuery.Sql
