import SemanticQuery.Proofs.Sql.Tokens

/-!
# Reading written queries

A written query can be read back token by token: its names and constants are those of the tree in
textual order, and its placeholders are numbered in the order of the bound texts, whatever marks the
names and constants hold.  Every quote and every placeholder is followed by a text that it cannot go
on with.
-/

namespace SemanticQuery.Sql

/-! ## Leaves -/

/-- What a query brings into its text besides keywords, punctuation and numbers. -/
inductive Leaf where
  /-- The name of a table or a column, or an alias. -/
  | name (text : String)
  | constant (text : String)
  | bound (text : String)
  /-- The name of a function or of a type to cast to. -/
  | word (text : String)
  deriving DecidableEq

namespace Leaf

def name? : Leaf → Option String
  | .name text => some text
  | _ => none

def constant? : Leaf → Option String
  | .constant text => some text
  | _ => none

def bound? : Leaf → Option String
  | .bound text => some text
  | _ => none

def word? : Leaf → Option String
  | .word text => some text
  | _ => none

end Leaf

def leavesOfValue : Value → List Leaf
  | .text content => [.bound content]
  | _ => []

mutual

def Expr.leaves : Expr → List Leaf
  | .column table name => [.name table, .name name]
  | .value content => leavesOfValue content
  | .constant content => [.constant content]
  | .binary _ left right => left.leaves ++ right.leaves
  | .logical _ operands => Expr.leavesOfList operands
  | .not operand => operand.leaves
  | .function name _ arguments => .word name :: Expr.leavesOfList arguments
  | .cast operand type => operand.leaves ++ [.word type]
  | .withinGroup name arguments orderBy =>
      .word name :: Expr.leavesOfList arguments ++ orderBy.leaves
  | .rowNumber orderBy => Expr.leavesOfTerms orderBy

def Expr.leavesOfList : List Expr → List Leaf
  | [] => []
  | expr :: rest => expr.leaves ++ Expr.leavesOfList rest

def Expr.leavesOfTerm : OrderTerm Expr → List Leaf
  | ⟨expr, _, _⟩ => expr.leaves

def Expr.leavesOfTerms : List (OrderTerm Expr) → List Leaf
  | [] => []
  | term :: rest => Expr.leavesOfTerm term ++ Expr.leavesOfTerms rest

end

def leavesOfColumn (column : Expr × String) : List Leaf :=
  column.1.leaves ++ [.name column.2]

def leavesOfClause : Option Expr → List Leaf
  | some expr => expr.leaves
  | none => []

/-- The leaves of the condition of a join. A cross join does not use its condition. -/
def leavesOfCondition : JoinKind → Option Expr → List Leaf
  | .leftOuter, condition => leavesOfClause condition
  | .cross, _ => []

mutual

/-- The leaves of a query in textual order: returned columns, source, joins, WHERE, GROUP BY, HAVING
and ORDER BY. -/
def Select.leaves : Select → List Leaf
  | ⟨columns, source, joins, filter, groupBy, having, orderBy, _⟩ =>
      columns.flatMap leavesOfColumn ++ Select.leavesOfTable source ++ Select.leavesOfJoins joins ++
        leavesOfClause filter ++ Expr.leavesOfList groupBy ++ leavesOfClause having ++
        Expr.leavesOfTerms orderBy

def Select.leavesOfTable : TableRef Select → List Leaf
  | .table name => [.name name]
  | .derived query label => query.leaves ++ [.name label]

def Select.leavesOfJoin : JoinClause Select → List Leaf
  | ⟨kind, table, condition, _⟩ => Select.leavesOfTable table ++ leavesOfCondition kind condition

def Select.leavesOfJoins : List (JoinClause Select) → List Leaf
  | [] => []
  | join :: rest => Select.leavesOfJoin join ++ Select.leavesOfJoins rest

end

/-- The names of tables and columns and the aliases of a query in textual order. -/
def Select.names (select : Select) : List String :=
  select.leaves.filterMap Leaf.name?

def Select.constants (select : Select) : List String :=
  select.leaves.filterMap Leaf.constant?

/-- Leaves whose functions and types hold no mark. -/
def ArePlain (leaves : List Leaf) : Prop :=
  ∀ word ∈ leaves.filterMap Leaf.word?, IsUnmarked word

instance (leaves : List Leaf) : Decidable (ArePlain leaves) :=
  inferInstanceAs (Decidable (∀ word ∈ _, IsUnmarked word))

@[simp]
theorem arePlain_append {first second : List Leaf} :
    ArePlain (first ++ second) ↔ ArePlain first ∧ ArePlain second := by
  rw [ArePlain, List.filterMap_append, List.forall_mem_append]
  rfl

@[simp]
theorem arePlain_word {word : String} {rest : List Leaf} :
    ArePlain (.word word :: rest) ↔ IsUnmarked word ∧ ArePlain rest := by
  exact List.forall_mem_cons (p := IsUnmarked) (a := word) (l := rest.filterMap Leaf.word?)

theorem arePlain_flatMap {α : Type} {leavesOf : α → List Leaf} {items : List α} :
    ArePlain (items.flatMap leavesOf) ↔ ∀ item ∈ items, ArePlain (leavesOf item) := by
  induction items with
  | nil => exact iff_of_true nofun nofun
  | cons item rest ih => rw [List.flatMap_cons, arePlain_append, ih, List.forall_mem_cons]

def tokensOf (dialect : Dialect) : Nat → List Leaf → List Token
  | _, [] => []
  | position, .name name :: rest => .name name :: tokensOf dialect position rest
  | position, .constant text :: rest => .constant text :: tokensOf dialect position rest
  | position, .bound _ :: rest =>
      .placeholder (dialect.placeholder position) :: tokensOf dialect (position + 1) rest
  | position, .word _ :: rest => tokensOf dialect position rest

/-! ## Tokens of leaves -/

section Tokens

variable {dialect : Dialect} {position : Nat}

theorem tokensOf_append (first second : List Leaf) :
    tokensOf dialect position (first ++ second) = tokensOf dialect position first ++
      tokensOf dialect (position + (first.filterMap Leaf.bound?).length) second := by
  induction first generalizing position with
  | nil => rfl
  | cons leaf rest ih =>
      cases leaf with
      | bound text => simp [tokensOf, ih, Leaf.bound?, Nat.add_assoc, Nat.add_comm 1]
      | name name | constant text | word word => simp [tokensOf, ih, List.filterMap_cons, Leaf.bound?]

theorem filterMap_name?_tokensOf (leaves : List Leaf) :
    (tokensOf dialect position leaves).filterMap Token.name? = leaves.filterMap Leaf.name? := by
  induction leaves generalizing position with
  | nil => rfl
  | cons leaf rest ih =>
      cases leaf <;> simp [tokensOf, ih, List.filterMap_cons, Token.name?, Leaf.name?]

theorem filterMap_constant?_tokensOf (leaves : List Leaf) :
    (tokensOf dialect position leaves).filterMap Token.constant? =
      leaves.filterMap Leaf.constant? := by
  induction leaves generalizing position with
  | nil => rfl
  | cons leaf rest ih =>
      cases leaf <;> simp [tokensOf, ih, List.filterMap_cons, Token.constant?, Leaf.constant?]

/-- Placeholders are numbered from the first position on. -/
theorem filterMap_placeholder?_tokensOf (leaves : List Leaf) :
    (tokensOf dialect position leaves).filterMap Token.placeholder? =
      (List.range (leaves.filterMap Leaf.bound?).length).map fun index =>
        dialect.placeholder (position + index) := by
  induction leaves generalizing position with
  | nil => rfl
  | cons leaf rest ih =>
      cases leaf with
      | bound text =>
          simp [tokensOf, ih, Token.placeholder?, Leaf.bound?, List.range_succ_eq_map,
            Function.comp_def, Nat.add_assoc, Nat.add_comm 1]
      | name name | constant text | word word =>
          simp [tokensOf, ih, List.filterMap_cons, Token.placeholder?, Leaf.bound?]

end Tokens

/-! ## Fragments -/

/-- Fragments that are read as some leaves, wherever no quote is open and no placeholder goes on. -/
structure IsRead (dialect : Dialect) (fragments : List Fragment) (leaves : List Leaf) : Prop where
  texts : boundTexts fragments = leaves.filterMap Leaf.bound?
  tokens : ∀ position before,
    ((Reader.mk before .bare).readAll (written dialect position fragments)).tokens? =
      some (before ++ tokensOf dialect position leaves)

namespace IsRead

variable {dialect : Dialect} {first rest : List Fragment} {leaves others : List Leaf}

theorem nil : IsRead dialect [] [] where
  texts := rfl
  tokens := by simp [Reader.readAll, Reader.tokens?, tokensOf]

theorem text {text : String} (unmarked : IsUnmarked text) (later : IsRead dialect rest leaves) :
    IsRead dialect ([.text text] ++ rest) leaves where
  texts := later.texts
  tokens := by
    intro position before
    rw [List.singleton_append, written_text, Reader.readAll_append, Reader.readAll_unmarked unmarked]
    exact later.tokens position before

/-- Function and type names are part of the text around them. -/
theorem word (word : String) (isRead : IsRead dialect rest leaves) :
    IsRead dialect rest (.word word :: leaves) where
  texts := isRead.texts
  tokens := isRead.tokens

theorem name (name : String) : IsRead dialect [.name name] [.name name] where
  texts := rfl
  tokens := by
    intro position before
    rw [written_name, written_nil, List.append_nil]
    exact Reader.tokens?_readAll_doubled .name name

theorem constant (text : String) : IsRead dialect [.constant text] [.constant text] where
  texts := rfl
  tokens := by
    intro position before
    rw [written_constant, written_nil, List.append_nil]
    exact Reader.tokens?_readAll_doubled .constant text

theorem bound (text : String) : IsRead dialect [.bound text] [.bound text] where
  texts := rfl
  tokens := by
    intro position before
    rw [written_bound, written_nil, List.append_nil, Reader.readAll_placeholder, Reader.tokens?,
      String.ofList_toList]
    rfl

theorem value (content : Value) : IsRead dialect [valueFragment content] (leavesOfValue content) := by
  have ofWord {word : String} (isWord : valueFragment content = .text word) :
      IsRead dialect [valueFragment content] [] := by
    rw [isWord]
    exact .text (isUnmarked_of_isBare (isValueWord_of_valueFragment isWord).bare) .nil
  cases content with
  | text content => exact .bound content
  | null | boolean | integer | float => exact ofWord rfl

/-- A separator stands between what is read before and after it. -/
theorem separated {separator : String} (before : IsRead dialect first leaves)
    (separates : Separates separator) (after : IsRead dialect rest others) :
    IsRead dialect (first ++ [.text separator] ++ rest) (leaves ++ others) where
  texts := by
    rw [boundTexts_append, boundTexts_append, before.texts, after.texts, List.filterMap_append]
    simp
  tokens := by
    intro position tokens
    rw [List.append_assoc, List.singleton_append, written_append, written_text,
      Reader.readAll_append, Reader.readAll_append,
      Reader.readAll_separator (before.tokens position tokens) separates, after.tokens,
      tokensOf_append, before.texts, List.append_assoc]

theorem closed {text : String} (before : IsRead dialect first leaves) (separates : Separates text) :
    IsRead dialect (first ++ [.text text]) leaves := by
  have whole := before.separated separates nil
  rwa [List.append_nil, List.append_nil] at whole

theorem enclosed {opening : String} (unmarked : IsUnmarked opening)
    (isRead : IsRead dialect first leaves) :
    IsRead dialect ([.text opening] ++ first ++ [.text ")"]) leaves :=
  (text unmarked isRead).closed (by decide)

end IsRead

inductive AreRead (dialect : Dialect) : List (List Fragment) → List Leaf → Prop where
  | nil : AreRead dialect [] []
  | cons {part : List Fragment} {parts : List (List Fragment)} {leaves others : List Leaf}
      (first : IsRead dialect part leaves) (rest : AreRead dialect parts others) :
      AreRead dialect (part :: parts) (leaves ++ others)

namespace AreRead

variable {dialect : Dialect} {parts more : List (List Fragment)} {leaves others : List Leaf}

theorem singleton {part : List Fragment} (isRead : IsRead dialect part leaves) :
    AreRead dialect [part] leaves := by
  have whole := AreRead.cons isRead .nil
  rwa [List.append_nil] at whole

theorem append (first : AreRead dialect parts leaves) (second : AreRead dialect more others) :
    AreRead dialect (parts ++ more) (leaves ++ others) := by
  induction first with
  | nil => exact second
  | cons isRead _ ih =>
      rw [List.cons_append, List.append_assoc]
      exact .cons isRead ih

theorem map {α : Type} {write : α → List Fragment} {leavesOf : α → List Leaf} {items : List α}
    (each : ∀ item ∈ items, IsRead dialect (write item) (leavesOf item)) :
    AreRead dialect (items.map write) (items.flatMap leavesOf) := by
  induction items with
  | nil => exact .nil
  | cons item rest ih =>
      exact .cons (each item List.mem_cons_self) (ih fun other member =>
        each other (List.mem_cons_of_mem _ member))

/-- Parts are read behind another one, each after a separator. -/
theorem separated {separator : String} {part : List Fragment} (separates : Separates separator)
    (isRead : IsRead dialect part leaves) (areRead : AreRead dialect parts others) :
    IsRead dialect (part ++ parts.flatMap (.text separator :: ·)) (leaves ++ others) := by
  induction areRead generalizing part leaves with
  | nil =>
      rw [List.flatMap_nil, List.append_nil, List.append_nil]
      exact isRead
  | cons first _ ih =>
      have whole := isRead.separated separates (ih first)
      rwa [List.append_assoc] at whole

/-- Parts with separators between them are read one after the other. -/
theorem joined {separator : String} (areRead : AreRead dialect parts leaves)
    (separates : Separates separator) : IsRead dialect (joined separator parts) leaves := by
  cases areRead with
  | nil => exact .nil
  | cons first rest =>
      rw [joined_cons]
      exact separated separates first rest

theorem listed (areRead : AreRead dialect parts leaves) :
    IsRead dialect (Sql.joined ", " parts) leaves :=
  areRead.joined (by decide)

end AreRead

/-! ## Expressions -/

theorem separates_symbol (operator : Operator) : Separates (" " ++ operator.symbol ++ " ") := by
  have all : ∀ operator ∈ Operator.all, Separates (" " ++ operator.symbol ++ " ") := by decide
  cases operator <;> exact all _ (by decide)

theorem separates_connective (connective : Connective) : Separates connective.separator := by
  cases connective <;> decide

theorem separates_withinGroup : Separates ") WITHIN GROUP (ORDER BY " := by decide

theorem separates_direction (direction : Direction) (nullsLast : Bool) :
    Separates (directionText direction ++ if nullsLast then " NULLS LAST" else "") := by
  cases direction <;> cases nullsLast <;> decide

mutual

/-- An expression is read back leaf by leaf. -/
theorem Expr.isRead {dialect : Dialect} : ∀ expr : Expr, ArePlain expr.leaves →
    IsRead dialect expr.fragments expr.leaves
  | .column table name, _ => (IsRead.name table).separated (by decide) (.name name)
  | .value content, _ => .value content
  | .constant content, _ => .constant content
  | .binary operator left right, plain => by
      obtain ⟨plainLeft, plainRight⟩ := arePlain_append.mp plain
      have opened : IsRead dialect ([.text "("] ++ left.fragments) left.leaves :=
        .text (by decide) (left.isRead plainLeft)
      have both := opened.separated (separates_symbol operator) (right.isRead plainRight)
      exact both.closed (by decide)
  | .logical connective operands, plain =>
      .enclosed (by decide) ((Expr.areRead operands plain).joined (separates_connective connective))
  | .not operand, plain => .enclosed (by decide) (operand.isRead plain)
  | .function name distinct arguments, plain => by
      obtain ⟨unmarked, plainArguments⟩ := arePlain_word.mp plain
      have opening : IsUnmarked (name ++ "(" ++ if distinct then "DISTINCT " else "") := by
        refine (unmarked.append (by decide)).append ?_
        cases distinct <;> decide
      exact (IsRead.enclosed opening (Expr.areRead arguments plainArguments).listed).word name
  | .cast operand type, plain => by
      obtain ⟨plainOperand, unmarked⟩ := arePlain_append.mp plain
      have ending : Separates (" AS " ++ type ++ ")") :=
        (Separates.append (by decide) (arePlain_word.mp unmarked).1).append (by decide)
      have opened : IsRead dialect ([.text "CAST("] ++ operand.fragments) operand.leaves :=
        .text (by decide) (operand.isRead plainOperand)
      have whole := opened.separated ending (IsRead.nil.word type)
      rwa [List.append_nil] at whole
  | .withinGroup name arguments orderBy, plain => by
      obtain ⟨plainCall, plainOrder⟩ := arePlain_append.mp plain
      obtain ⟨unmarked, plainArguments⟩ := arePlain_word.mp plainCall
      have call : IsRead dialect
          ([.text (name ++ "(")] ++ joined ", " (Expr.fragmentsOfList arguments))
          (.word name :: Expr.leavesOfList arguments) :=
        .word name (.text (unmarked.append (by decide))
          (Expr.areRead arguments plainArguments).listed)
      have ordered := call.separated separates_withinGroup (orderBy.isRead plainOrder)
      exact ordered.closed (by decide)
  | .rowNumber orderBy, plain => .enclosed (by decide) (Expr.areReadTerms orderBy plain).listed

theorem Expr.areRead {dialect : Dialect} : ∀ exprs : List Expr, ArePlain (Expr.leavesOfList exprs) →
    AreRead dialect (Expr.fragmentsOfList exprs) (Expr.leavesOfList exprs)
  | [], _ => .nil
  | expr :: rest, plain => by
      obtain ⟨plainFirst, plainRest⟩ := arePlain_append.mp plain
      exact .cons (expr.isRead plainFirst) (Expr.areRead rest plainRest)

theorem Expr.isReadTerm {dialect : Dialect} : ∀ term : OrderTerm Expr,
    ArePlain (Expr.leavesOfTerm term) →
    IsRead dialect (Expr.fragmentsOfTerm term) (Expr.leavesOfTerm term)
  | ⟨expr, direction, nullsLast⟩, plain =>
      (expr.isRead plain).closed (separates_direction direction nullsLast)

theorem Expr.areReadTerms {dialect : Dialect} : ∀ terms : List (OrderTerm Expr),
    ArePlain (Expr.leavesOfTerms terms) →
    AreRead dialect (Expr.fragmentsOfTerms terms) (Expr.leavesOfTerms terms)
  | [], _ => .nil
  | term :: rest, plain => by
      obtain ⟨plainFirst, plainRest⟩ := arePlain_append.mp plain
      exact .cons (Expr.isReadTerm term plainFirst) (Expr.areReadTerms rest plainRest)

end

/-! ## Queries -/

section Clauses

variable {dialect : Dialect} {keyword : String}

theorem isRead_column {column : Expr × String} (plain : ArePlain (leavesOfColumn column)) :
    IsRead dialect (columnFragments column) (leavesOfColumn column) := by
  have expr : IsRead dialect column.1.fragments column.1.leaves :=
    column.1.isRead (arePlain_append.mp plain).1
  have separates : Separates " AS " := by decide
  have whole := expr.separated separates (.name column.2)
  rwa [List.append_assoc] at whole

theorem areRead_optionalFragments (unmarked : IsUnmarked keyword) {clause : Option Expr}
    (plain : ArePlain (leavesOfClause clause)) :
    AreRead dialect (optionalFragments keyword clause) (leavesOfClause clause) := by
  cases clause with
  | none => exact .nil
  | some expr => exact .singleton (.text unmarked (expr.isRead plain))

theorem areRead_listFragments (unmarked : IsUnmarked keyword) {items : List (List Fragment)}
    {leaves : List Leaf} (areRead : AreRead dialect items leaves) :
    AreRead dialect (listFragments keyword items) leaves := by
  unfold listFragments
  cases areRead with
  | nil => exact .nil
  | cons first rest => exact .singleton (.text unmarked (AreRead.cons first rest).listed)

theorem areRead_limitFragments (limit : Option Nat) : AreRead dialect (limitFragments limit) [] := by
  cases limit with
  | none => exact .nil
  | some count =>
      refine .singleton (.text (IsUnmarked.append (by decide) (isUnmarked_of_isBare ?_)) .nil)
      rw [Nat.toList_repr]
      exact fun c member => isBareChar_of_isDigit (isDigit_of_mem_toDigits member)

end Clauses

mutual

/-- A query is read back leaf by leaf. -/
theorem Select.isRead {dialect : Dialect} : ∀ select : Select, ArePlain select.leaves →
    IsRead dialect select.fragments select.leaves
  | ⟨columns, source, joins, filter, groupBy, having, orderBy, limit⟩, plain => by
      simp only [Select.leaves, arePlain_append] at plain
      obtain ⟨⟨⟨⟨⟨⟨plainColumns, plainSource⟩, plainJoins⟩, plainFilter⟩, plainGroupBy⟩, plainHaving⟩,
        plainOrderBy⟩ := plain
      have columnsRead : IsRead dialect
          ([.text "SELECT "] ++ joined ", " (columns.map columnFragments))
          (columns.flatMap leavesOfColumn) :=
        .text (by decide) (AreRead.map fun column member =>
          isRead_column (arePlain_flatMap.mp plainColumns column member)).listed
      have sourceRead : IsRead dialect ([.text "FROM "] ++ Select.fragmentsOfTable source)
          (Select.leavesOfTable source) :=
        .text (by decide) (Select.isReadTable source plainSource)
      have filterRead : AreRead dialect (optionalFragments "WHERE " filter) (leavesOfClause filter) :=
        areRead_optionalFragments (by decide) plainFilter
      have groupByRead : AreRead dialect (listFragments "GROUP BY " (Expr.fragmentsOfList groupBy))
          (Expr.leavesOfList groupBy) :=
        areRead_listFragments (by decide) (Expr.areRead groupBy plainGroupBy)
      have havingRead : AreRead dialect (optionalFragments "HAVING " having) (leavesOfClause having) :=
        areRead_optionalFragments (by decide) plainHaving
      have orderByRead : AreRead dialect (listFragments "ORDER BY " (Expr.fragmentsOfTerms orderBy))
          (Expr.leavesOfTerms orderBy) :=
        areRead_listFragments (by decide) (Expr.areReadTerms orderBy plainOrderBy)
      have clauses := (AreRead.singleton columnsRead).append (.singleton sourceRead)
        |>.append (Select.areReadJoins joins plainJoins) |>.append filterRead
        |>.append groupByRead |>.append havingRead |>.append orderByRead
        |>.append (areRead_limitFragments limit)
      rw [List.append_nil] at clauses
      exact clauses.joined (by decide)

theorem Select.isReadTable {dialect : Dialect} : ∀ table : TableRef Select,
    ArePlain (Select.leavesOfTable table) →
    IsRead dialect (Select.fragmentsOfTable table) (Select.leavesOfTable table)
  | .table name, _ => .name name
  | .derived query label, plain => by
      have opened : IsRead dialect ([.text "("] ++ query.fragments) query.leaves :=
        .text (by decide) (query.isRead (arePlain_append.mp plain).1)
      have separates : Separates ") AS " := by decide
      have whole := opened.separated separates (.name label)
      rwa [List.append_assoc] at whole

theorem Select.isReadJoin {dialect : Dialect} : ∀ join : JoinClause Select,
    ArePlain (Select.leavesOfJoin join) →
    IsRead dialect (Select.fragmentsOfJoin join) (Select.leavesOfJoin join)
  | ⟨kind, table, condition, relation⟩, plain => by
      obtain ⟨plainTable, plainCondition⟩ := arePlain_append.mp plain
      have source : IsRead dialect (Select.fragmentsOfTable table) (Select.leavesOfTable table) :=
        Select.isReadTable table plainTable
      have joined : IsRead dialect ([.text "LEFT OUTER JOIN "] ++ Select.fragmentsOfTable table)
          (Select.leavesOfTable table) := .text (by decide) source
      cases kind with
      | leftOuter =>
          cases condition with
          | none =>
              rw [Select.leavesOfJoin, leavesOfCondition, leavesOfClause, List.append_nil]
              exact joined.closed (by decide)
          | some expr =>
              have separates : Separates " ON " := by decide
              exact joined.separated separates (expr.isRead plainCondition)
      | cross =>
          rw [Select.leavesOfJoin, leavesOfCondition, List.append_nil]
          exact .text (by decide) source

theorem Select.areReadJoins {dialect : Dialect} : ∀ joins : List (JoinClause Select),
    ArePlain (Select.leavesOfJoins joins) →
    AreRead dialect (Select.fragmentsOfJoins joins) (Select.leavesOfJoins joins)
  | [], _ => .nil
  | join :: rest, plain => by
      obtain ⟨plainFirst, plainRest⟩ := arePlain_append.mp plain
      exact .cons (Select.isReadJoin join plainFirst) (Select.areReadJoins rest plainRest)

end

/-! ## Statements -/

/-- The text of a statement never ends inside a quote.  Its names and its constants are those of the
query in textual order, and outside of quotes there is one placeholder for each parameter, in order. -/
theorem readTokens?_emit (dialect : Dialect) (select : Select) (plain : ArePlain select.leaves) :
    ∃ tokens, readTokens? (select.emit dialect).sql = some tokens ∧
      tokens = tokensOf dialect 1 select.leaves ∧
      tokens.filterMap Token.name? = select.names ∧
      tokens.filterMap Token.constant? = select.constants ∧
      tokens.filterMap Token.placeholder? =
        (List.range (select.emit dialect).params.length).map fun index =>
          match dialect with
          | .sqlite => "?"
          | .postgres => "$" ++ (index + 1).repr := by
  have isRead : IsRead dialect select.fragments select.leaves := select.isRead plain
  refine ⟨_, ?_, rfl, filterMap_name?_tokensOf _, filterMap_constant?_tokensOf _, ?_⟩
  · rw [readTokens?, select.toList_sql_emit]
    exact isRead.tokens 1 []
  · have params : (select.emit dialect).params.length =
        (select.leaves.filterMap Leaf.bound?).length := by
      rw [Select.emit_eq, List.length_map, isRead.texts]
    rw [filterMap_placeholder?_tokensOf, params]
    refine List.map_congr_left fun index _ => ?_
    rw [Nat.add_comm 1]
    cases dialect <;> rfl

/-- A query with marks in its names, in a constant and in the texts that it binds, and with a
condition that is not used. -/
def markedNames : Select where
  columns := [(.function "COUNT" true [.column "team\"s" "it's $1"], "how \"many\"?")]
  source := .derived
    { columns := [(.constant "it's \"?\"", "\"")], source := .table "'$2'" } "team\"s"
  joins := [{
    kind := .cross
    table := .table "?"
    condition := some (.constant "'")
    relation := none }]
  filter := some (.binary .equal (.column "?" "") (.value (.text "\"")))
  having := some (.cast (.value (.text "?")) "TEXT")

/-- All marks in the names are read as parts of them, in both dialects. -/
theorem readTokens?_emit_markedNames :
    ArePlain markedNames.leaves ∧
      (markedNames.emit .postgres).sql =
        "SELECT COUNT(DISTINCT \"team\"\"s\".\"it's $1\") AS \"how \"\"many\"\"?\" " ++
          "FROM (SELECT 'it''s \"?\"' AS \"\"\"\" FROM \"'$2'\") AS \"team\"\"s\" " ++
          "CROSS JOIN \"?\" WHERE (\"?\".\"\" = $1) HAVING CAST($2 AS TEXT)" ∧
      ∀ dialect, readTokens? (markedNames.emit dialect).sql = some
        [.name "team\"s", .name "it's $1", .name "how \"many\"?", .constant "it's \"?\"", .name "\"",
          .name "'$2'", .name "team\"s", .name "?", .name "?", .name "",
          .placeholder (dialect.placeholder 1), .placeholder (dialect.placeholder 2)] := by
  have plain : ArePlain markedNames.leaves := by decide +kernel
  refine ⟨plain, by decide +kernel, fun dialect => ?_⟩
  obtain ⟨tokens, found, rfl, -⟩ := readTokens?_emit dialect markedNames plain
  exact found

end SemanticQuery.Sql
