import SemanticQuery.Proofs.Resolve.Query
import SemanticQuery.Proofs.Sql.ExprText

/-!
# Queries in SQL text

Queries that are written in the same way and bind the same texts are equal, but for what is not
written: the relations that joins follow and the conditions of cross joins.  The clauses of a query
are told apart by their first words, and no expression begins with one of these.
-/

namespace SemanticQuery.Sql

variable {dialect : Dialect} {position : Nat} {rest others : List Fragment}

/-! ## Queries that are written -/

def Select.exprs (select : Select) : List Expr :=
  select.columns.map (·.1) ++ select.joins.flatMap (·.condition.toList) ++ select.filter.toList ++
    select.groupBy ++ select.having.toList ++ select.orderBy.map (·.expr)

inductive Select.IsWritable : Select → Prop
  | mk {select : Select} : (∀ expr ∈ select.exprs, expr.IsWritable) →
      (∀ inner, select.Reads inner → IsWritable inner) → IsWritable select

theorem Select.forall_exprs_iff {select : Select} {holds : Expr → Prop} :
    (∀ expr ∈ select.exprs, holds expr) ↔
      (∀ column ∈ select.columns, holds column.1) ∧
      (∀ join ∈ select.joins, ∀ expr ∈ join.condition, holds expr) ∧
      (∀ expr ∈ select.filter, holds expr) ∧ (∀ expr ∈ select.groupBy, holds expr) ∧
      (∀ expr ∈ select.having, holds expr) ∧ ∀ term ∈ select.orderBy, holds term.expr := by
  simp only [exprs, List.forall_mem_append, List.forall_mem_map, List.forall_mem_flatMap,
    Option.mem_toList, Option.mem_def, and_assoc]

inductive TableRef.Rel {σ : Type} (related : σ → σ → Prop) : TableRef σ → TableRef σ → Prop
  | table (name : String) : Rel related (.table name) (.table name)
  | derived (label : String) {first second : σ} : related first second →
      Rel related (.derived first label) (.derived second label)

/-- Joins of one kind to related tables, on agreeing conditions.  A cross join has no use for its
condition, and it does not matter what a join follows. -/
inductive JoinClause.Rel {σ : Type} (related : σ → σ → Prop) : JoinClause σ → JoinClause σ → Prop
  | leftOuter {table other : TableRef σ} {condition otherCondition : Option Expr}
      (relation otherRelation : Option String) : TableRef.Rel related table other →
      Option.Rel Expr.Agrees condition otherCondition →
      Rel related ⟨.leftOuter, table, condition, relation⟩
        ⟨.leftOuter, other, otherCondition, otherRelation⟩
  | cross {table other : TableRef σ} (condition otherCondition : Option Expr)
      (relation otherRelation : Option String) : TableRef.Rel related table other →
      Rel related ⟨.cross, table, condition, relation⟩
        ⟨.cross, other, otherCondition, otherRelation⟩

def ColumnAgrees (first second : Expr × String) : Prop :=
  first.1.Agrees second.1 ∧ first.2 = second.2

/-- Queries that are equal but for what joins follow and the conditions of cross joins; floating
point numbers are compared by their text. -/
inductive Select.Agrees : Select → Select → Prop
  | mk {first second : Select} :
      List.Forall₂ ColumnAgrees first.columns second.columns →
      TableRef.Rel Agrees first.source second.source →
      List.Forall₂ (JoinClause.Rel Agrees) first.joins second.joins →
      Option.Rel Expr.Agrees first.filter second.filter →
      List.Forall₂ Expr.Agrees first.groupBy second.groupBy →
      Option.Rel Expr.Agrees first.having second.having →
      List.Forall₂ (OrderTerm.Rel Expr.Agrees) first.orderBy second.orderBy →
      first.limit = second.limit → Agrees first second

/-! ## Clauses -/

/-- The first words of the clauses that can follow the source of a query. -/
def clauseWords : List String :=
  ["LEFT", "CROSS", "WHERE", "GROUP", "HAVING", "ORDER", "LIMIT"]

theorem isBare_of_mem_clauseWords {word : String} (listed : word ∈ clauseWords) :
    IsBare word.toList := by
  have all : ∀ word ∈ clauseWords, IsBare word.toList := by decide +kernel
  exact all word listed

/-- Fragments that end a query or go on with a clause that begins with one of the words. -/
def Follows (dialect : Dialect) (words : List String) (fragments : List Fragment) : Prop :=
  ∀ position, written dialect position fragments = [] ∨
    (written dialect position fragments).head? = some ')' ∨
    ∃ word ∈ words, (" " ++ word ++ " ").toList <+: written dialect position fragments

namespace Follows

variable {words : List String}

theorem nil : Follows dialect words [] :=
  fun _ => .inl rfl

theorem of_closes (closes : Closes dialect rest) : Follows dialect words rest :=
  fun position => .inr (.inl (closes position))

theorem mono {more : List String} (fewer : words ⊆ more) (follows : Follows dialect words rest) :
    Follows dialect more rest := by
  intro position
  refine (follows position).imp_right (Or.imp_right ?_)
  rintro ⟨word, listed, starts⟩
  exact ⟨word, fewer listed, starts⟩

theorem of_word {word : String} (listed : word ∈ words) {text : String}
    (starts : (word ++ " ").toList <+: text.toList) :
    Follows dialect words (.text " " :: .text text :: rest) := by
  intro position
  refine .inr (.inr ⟨word, listed, ?_⟩)
  obtain ⟨tail, whole⟩ := starts
  simp only [written_text, ← whole, String.toList_append, List.append_assoc]
  exact (List.prefix_append_right_inj _).mpr
    ((List.prefix_append_right_inj _).mpr (List.prefix_append _ _))

theorem ends (follows : Follows dialect clauseWords rest) : Ends dialect rest := by
  intro position
  rcases follows position with empty | closes | ⟨word, listed, tail, whole⟩
  · rw [empty]
    rfl
  · obtain ⟨tail, chars⟩ := List.head?_eq_some_iff.mp closes
    rw [chars]
    rfl
  · rw [← whole]
    simp only [clauseWords, List.mem_cons, List.not_mem_nil, or_false] at listed
    rcases listed with rfl | rfl | rfl | rfl | rfl | rfl | rfl <;> rfl

theorem breaks (follows : Follows dialect words rest) : Breaks dialect ", " rest := by
  refine breaks_of_head? ',' rfl fun position first => ?_
  rcases follows position with empty | closes | ⟨word, listed, tail, whole⟩
  · rw [empty] at first
    cases first
  · rw [closes] at first
    exact absurd first (by decide)
  · rw [← whole] at first
    simp at first

/-- The first word of what follows is one of the words. -/
theorem mem_of_starts (follows : Follows dialect words rest) (known : words ⊆ clauseWords)
    (word : String) (bare : IsBare word.toList) (position : Nat)
    (starts : (" " ++ word ++ " ").toList <+: written dialect position rest) : word ∈ words := by
  obtain ⟨tail, whole⟩ := starts
  rcases follows position with empty | closes | ⟨found, listed, otherTail, otherWhole⟩
  · rw [← whole] at empty
    simp at empty
  · rw [← whole] at closes
    simp at closes
  · have same := whole.trans otherWhole.symm
    simp only [String.toList_append, List.append_assoc, List.append_cancel_left_eq] at same
    have openings := congrArg opening same
    rw [opening_append bare (by simp),
      opening_append (isBare_of_mem_clauseWords (known listed)) (by simp)] at openings
    obtain rfl := String.toList_inj.mp (Prod.mk.inj openings).1
    exact listed

end Follows

/-- A keyword that begins with a word, none of the words of the clauses behind its own. -/
structure Introduces (keyword word : String) (words : List String) : Prop where
  starts : (word ++ " ").toList <+: keyword.toList
  bare : IsBare word.toList
  unlisted : word ∉ words
  known : words ⊆ clauseWords

namespace Introduces

variable {keyword word : String} {words : List String}

theorem starts_written (introduces : Introduces keyword word words) (position : Nat) :
    (" " ++ word ++ " ").toList <+:
      written dialect position (.text " " :: .text keyword :: rest) := by
  obtain ⟨tail, whole⟩ := introduces.starts
  simp only [written_text, ← whole, String.toList_append, List.append_assoc]
  exact (List.prefix_append_right_inj _).mpr
    ((List.prefix_append_right_inj _).mpr (List.prefix_append _ _))

theorem follows (introduces : Introduces keyword word words) :
    Follows dialect (word :: words) (.text " " :: .text keyword :: rest) :=
  fun position => .inr (.inr ⟨word, List.mem_cons_self, introduces.starts_written position⟩)

/-- What follows a clause does not begin like it. -/
theorem not_alike (introduces : Introduces keyword word words)
    (othersFollow : Follows dialect words others) :
    ¬ Alike dialect position (.text " " :: .text keyword :: rest) others := by
  intro alike
  refine introduces.unlisted
    (othersFollow.mem_of_starts introduces.known word introduces.bare position ?_)
  rw [← alike.chars]
  exact introduces.starts_written position

end Introduces

def following (parts : List (List Fragment)) : List Fragment :=
  parts.flatMap (.text " " :: ·)

section Clauses

variable {keyword word : String} {words : List String}

theorem follows_optionalFragments (introduces : Introduces keyword word words) (content : Option Expr)
    (follows : Follows dialect words rest) :
    Follows dialect (word :: words) (following (optionalFragments keyword content) ++ rest) := by
  cases content with
  | none => exact follows.mono (List.subset_cons_self word words)
  | some content => exact introduces.follows

theorem optionalFragments_told (introduces : Introduces keyword word words)
    {content otherContent : Option Expr} (writable : ∀ expr ∈ content, expr.IsWritable)
    (otherWritable : ∀ expr ∈ otherContent, expr.IsWritable)
    (follows : Follows dialect words rest) (othersFollow : Follows dialect words others)
    (alike : Alike dialect position (following (optionalFragments keyword content) ++ rest)
      (following (optionalFragments keyword otherContent) ++ others)) :
    Option.Rel Expr.Agrees content otherContent ∧ ∃ next, Alike dialect next rest others := by
  cases content <;> cases otherContent
  case none.none => exact ⟨.none, position, alike⟩
  case none.some => exact (introduces.not_alike follows alike.symm).elim
  case some.none => exact (introduces.not_alike othersFollow alike).elim
  case some.some expr other =>
    simp only [following, optionalFragments, List.flatMap_cons, List.flatMap_nil, List.append_nil,
      List.cons_append] at alike
    obtain ⟨agree, tails⟩ := Expr.told (writable expr rfl) (otherWritable other rfl)
      (follows.mono introduces.known).ends (othersFollow.mono introduces.known).ends
      alike.of_text.of_text
    exact ⟨.some agree, tails⟩

variable {α : Type} {write : α → List Fragment} {valid : α → Prop} {agrees : α → α → Prop}

theorem follows_listFragments (introduces : Introduces keyword word words)
    (items : List (List Fragment)) (follows : Follows dialect words rest) :
    Follows dialect (word :: words) (following (listFragments keyword items) ++ rest) := by
  cases items with
  | nil => exact follows.mono (List.subset_cons_self word words)
  | cons item items => exact introduces.follows

theorem listFragments_told (introduces : Introduces keyword word words)
    (begins : ∀ item, valid item → ∀ fragments, Ends dialect fragments →
      Begins dialect (write item ++ fragments))
    {items otherItems : List α}
    (told : ∀ item ∈ items, IsTold dialect (Ends dialect) write valid agrees item)
    (areValid : ∀ item ∈ items, valid item) (othersValid : ∀ item ∈ otherItems, valid item)
    (follows : Follows dialect words rest) (othersFollow : Follows dialect words others)
    (alike : Alike dialect position (following (listFragments keyword (items.map write)) ++ rest)
      (following (listFragments keyword (otherItems.map write)) ++ others)) :
    List.Forall₂ agrees items otherItems ∧ ∃ next, Alike dialect next rest others := by
  cases items <;> cases otherItems
  case nil.nil => exact ⟨.nil, position, alike⟩
  case nil.cons => exact (introduces.not_alike follows alike.symm).elim
  case cons.nil => exact (introduces.not_alike othersFollow alike).elim
  case cons.cons item items other otherItems =>
    simp only [following, listFragments, List.map_cons, List.isEmpty_cons, Bool.false_eq_true,
      if_false, List.flatMap_cons, List.flatMap_nil, List.append_nil, List.cons_append] at alike
    exact forall₂_of_joined ends_comma begins told areValid othersValid
      (follows.mono introduces.known).ends (othersFollow.mono introduces.known).ends
      follows.breaks othersFollow.breaks alike.of_text.of_text

end Clauses

theorem introduces_limit (count : Nat) : Introduces ("LIMIT " ++ count.repr) "LIMIT" [] where
  starts := by
    have whole : ("LIMIT " ++ count.repr).toList = "LIMIT ".toList ++ count.repr.toList :=
      String.toList_append
    rw [whole]
    exact List.prefix_append _ _
  bare := by decide
  unlisted := List.not_mem_nil
  known := List.nil_subset _

theorem follows_limitFragments (limit : Option Nat) (follows : Follows dialect [] rest) :
    Follows dialect ["LIMIT"] (following (limitFragments limit) ++ rest) := by
  cases limit with
  | none => exact follows.mono (List.nil_subset _)
  | some count => exact (introduces_limit count).follows

theorem isBare_repr (count : Nat) : IsBare count.repr.toList := by
  intro c member
  rw [Nat.toList_repr] at member
  exact isBareChar_of_isDigit (isDigit_of_mem_toDigits member)

theorem limitFragments_told {limit otherLimit : Option Nat} (follows : Follows dialect [] rest)
    (othersFollow : Follows dialect [] others)
    (alike : Alike dialect position (following (limitFragments limit) ++ rest)
      (following (limitFragments otherLimit) ++ others)) :
    limit = otherLimit ∧ ∃ next, Alike dialect next rest others := by
  cases limit <;> cases otherLimit
  case none.none => exact ⟨rfl, position, alike⟩
  case none.some other => exact ((introduces_limit other).not_alike follows alike.symm).elim
  case some.none count => exact ((introduces_limit count).not_alike othersFollow alike).elim
  case some.some count other =>
    have ends {fragments : List Fragment} (last : Follows dialect [] fragments) :
        Ends dialect fragments :=
      (last.mono (List.nil_subset _)).ends
    obtain ⟨sameText, tails⟩ := Alike.of_word (isBare_repr count) (isBare_repr other)
      ((ends follows).isBareChar position) ((ends othersFollow).isBareChar position)
      alike.of_text.of_append
    have digits := congrArg String.toList sameText
    rw [Nat.toList_repr, Nat.toList_repr] at digits
    exact ⟨congrArg some (toDigits_injective digits), position, tails⟩

/-! ## Columns and tables -/

theorem columnFragments_append (column : Expr × String) :
    columnFragments column ++ rest =
      column.1.fragments ++ .text " AS " :: .name column.2 :: rest := by
  simp [columnFragments]

theorem column_begins {column : Expr × String} (writable : column.1.IsWritable)
    (fragments : List Fragment) : Begins dialect (columnFragments column ++ fragments) := by
  rw [columnFragments_append]
  exact column.1.begins writable fun _ => rfl

theorem told_outputColumn {column : Expr × String} (writable : column.1.IsWritable) :
    IsTold dialect (Ends dialect) columnFragments (fun column => column.1.IsWritable) ColumnAgrees
      column := by
  rintro ⟨other, otherLabel⟩ position rest others otherWritable restEnds othersEnd alike
  rw [columnFragments_append, columnFragments_append] at alike
  obtain ⟨agree, next, labelled⟩ := Expr.told writable otherWritable (fun _ => rfl) (fun _ => rfl)
    alike
  obtain ⟨same, tails⟩ := Alike.of_name (restEnds.head?_ne next rfl) (othersEnd.head?_ne next rfl)
    labelled.of_text
  exact ⟨⟨agree, same⟩, next, tails⟩

/-- A query that its writing tells before the end of the query around it. -/
def Select.Told (dialect : Dialect) (select : Select) : Prop :=
  IsTold dialect (Follows dialect []) Select.fragments Select.IsWritable Select.Agrees select

def TableRef.Holds (holds : Select → Prop) (table : TableRef Select) : Prop :=
  ∀ query label, table = .derived query label → holds query

theorem told_table {table : TableRef Select} (told : table.Holds (Select.Told dialect)) :
    IsTold dialect (Ends dialect) Select.fragmentsOfTable (TableRef.Holds Select.IsWritable)
      (TableRef.Rel Select.Agrees) table := by
  intro other position rest others otherWritable restEnds othersEnd alike
  cases table <;> cases other
  case table.table name otherName =>
    obtain ⟨rfl, tails⟩ := Alike.of_name (restEnds.head?_ne position rfl)
      (othersEnd.head?_ne position rfl) alike
    exact ⟨.table name, position, tails⟩
  case table.derived name query label =>
    have first := congrArg List.head? alike.chars
    simp [Select.fragmentsOfTable, quoteName, toList_doubled] at first
  case derived.table query label name =>
    have first := congrArg List.head? alike.chars
    simp [Select.fragmentsOfTable, quoteName, toList_doubled] at first
  case derived.derived query label otherQuery otherLabel =>
    simp only [Select.fragmentsOfTable, List.append_assoc, List.cons_append, List.nil_append]
      at alike
    obtain ⟨agree, next, labelled⟩ := told query label rfl (otherWritable _ _ rfl)
      (.of_closes fun _ => rfl) (.of_closes fun _ => rfl) alike.of_text
    obtain ⟨rfl, tails⟩ := Alike.of_name (restEnds.head?_ne next rfl)
      (othersEnd.head?_ne next rfl) labelled.of_text
    exact ⟨.derived label agree, next, tails⟩

/-! ## Joins -/

structure JoinClause.IsWritable (clause : JoinClause Select) : Prop where
  condition : ∀ expr ∈ clause.condition, expr.IsWritable
  table : clause.table.Holds Select.IsWritable

/-- A condition that holds of all rows is not written like an expression. -/
theorem not_alike_always {expr : Expr} (writable : expr.IsWritable)
    (follows : Follows dialect clauseWords rest) :
    ¬ Alike dialect position (.text " ON " :: (expr.fragments ++ rest))
      (.text " ON 1 = 1" :: others) := by
  intro alike
  have always : " ON 1 = 1" = " ON " ++ ("1" ++ " = 1") := rfl
  have one : (Expr.integer 1).fragments = [.text "1"] := rfl
  have chars := alike.chars
  rw [always, written_text_append, written_text, written_text, List.append_cancel_left_eq,
    written_text_append] at chars
  -- Its first operand is an expression, and no clause begins with the operator behind it.
  have compared : Alike dialect position (expr.fragments ++ rest)
      ((Expr.integer 1).fragments ++ .text " = 1" :: others) :=
    ⟨chars, alike.texts⟩
  obtain ⟨-, next, tails⟩ := Expr.told writable (.value _) follows.ends (fun _ => rfl) compared
  have listed := follows.mem_of_starts (List.Subset.refl _) "=" (by decide) next
    (tails.chars ▸ List.prefix_append _ _)
  exact absurd listed (by decide)

def conditionFragments : Option Expr → List Fragment
  | some expr => .text " ON " :: expr.fragments
  | none => [.text " ON 1 = 1"]

theorem ends_conditionFragments (condition : Option Expr) :
    Ends dialect (conditionFragments condition ++ rest) := by
  intro position
  cases condition <;> rfl

theorem fragmentsOfJoin_leftOuter (table : TableRef Select) (condition : Option Expr)
    (relation : Option String) :
    Select.fragmentsOfJoin ⟨.leftOuter, table, condition, relation⟩ ++ rest =
      .text "LEFT OUTER JOIN " ::
        (Select.fragmentsOfTable table ++ (conditionFragments condition ++ rest)) := by
  cases condition <;> simp [Select.fragmentsOfJoin, conditionFragments]

theorem condition_told {condition otherCondition : Option Expr}
    (writable : ∀ expr ∈ condition, expr.IsWritable)
    (otherWritable : ∀ expr ∈ otherCondition, expr.IsWritable)
    (follows : Follows dialect clauseWords rest) (othersFollow : Follows dialect clauseWords others)
    (alike : Alike dialect position (conditionFragments condition ++ rest)
      (conditionFragments otherCondition ++ others)) :
    Option.Rel Expr.Agrees condition otherCondition ∧ ∃ next, Alike dialect next rest others := by
  cases condition <;> cases otherCondition
  case none.none => exact ⟨.none, position, alike.of_text⟩
  case none.some other =>
    exact (not_alike_always (otherWritable other rfl) othersFollow alike.symm).elim
  case some.none expr => exact (not_alike_always (writable expr rfl) follows alike).elim
  case some.some expr other =>
    obtain ⟨agree, tails⟩ := Expr.told (writable expr rfl) (otherWritable other rfl) follows.ends
      othersFollow.ends alike.of_text
    exact ⟨.some agree, tails⟩

theorem told_join {join : JoinClause Select} (writable : join.IsWritable)
    (told : join.table.Holds (Select.Told dialect)) :
    IsTold dialect (Follows dialect clauseWords) Select.fragmentsOfJoin JoinClause.IsWritable
      (JoinClause.Rel Select.Agrees) join := by
  rintro ⟨otherKind, otherTable, otherCondition, otherRelation⟩ position rest others otherWritable
    follows othersFollow alike
  obtain ⟨kind, table, condition, relation⟩ := join
  cases kind <;> cases otherKind
  case leftOuter.leftOuter =>
    rw [fragmentsOfJoin_leftOuter, fragmentsOfJoin_leftOuter] at alike
    obtain ⟨agree, next, conditions⟩ := told_table told otherWritable.table
      (ends_conditionFragments condition) (ends_conditionFragments otherCondition) alike.of_text
    obtain ⟨agreeConditions, tails⟩ := condition_told writable.condition otherWritable.condition
      follows othersFollow conditions
    exact ⟨.leftOuter _ _ agree agreeConditions, tails⟩
  case cross.cross =>
    obtain ⟨agree, tails⟩ := told_table told otherWritable.table follows.ends othersFollow.ends
      alike.of_text
    exact ⟨.cross _ _ _ _ agree, tails⟩
  case leftOuter.cross =>
    rw [fragmentsOfJoin_leftOuter] at alike
    have first := congrArg List.head? alike.chars
    simp [Select.fragmentsOfJoin] at first
  case cross.leftOuter =>
    rw [fragmentsOfJoin_leftOuter] at alike
    have first := congrArg List.head? alike.chars
    simp [Select.fragmentsOfJoin] at first

theorem Select.fragmentsOfJoins_eq_map (joins : List (JoinClause Select)) :
    Select.fragmentsOfJoins joins = joins.map Select.fragmentsOfJoin := by
  induction joins with
  | nil => rfl
  | cons join joins ih => rw [Select.fragmentsOfJoins, ih, List.map_cons]

def laterWords : List String :=
  ["WHERE", "GROUP", "HAVING", "ORDER", "LIMIT"]

theorem exists_introduces_join (join : JoinClause Select) : ∃ keyword word,
    Introduces keyword word laterWords ∧ word ∈ clauseWords ∧
      ∃ more, Select.fragmentsOfJoin join = .text keyword :: more := by
  obtain ⟨kind, table, condition, relation⟩ := join
  cases kind with
  | leftOuter =>
      refine ⟨"LEFT OUTER JOIN ", "LEFT", ⟨by decide, by decide, by decide, by decide⟩,
        by decide, ?_⟩
      cases condition <;> exact ⟨_, rfl⟩
  | cross =>
      exact ⟨"CROSS JOIN ", "CROSS", ⟨by decide, by decide, by decide, by decide⟩,
        by decide, _, rfl⟩

theorem follows_joins (joins : List (JoinClause Select)) (follows : Follows dialect laterWords rest) :
    Follows dialect clauseWords (following (joins.map Select.fragmentsOfJoin) ++ rest) := by
  cases joins with
  | nil => exact follows.mono (by decide)
  | cons join joins =>
      obtain ⟨keyword, word, introduces, listed, more, whole⟩ := exists_introduces_join join
      simp only [following, List.map_cons, List.flatMap_cons, List.cons_append, whole]
      exact introduces.follows.mono (List.cons_subset.mpr ⟨listed, by decide⟩)

theorem not_alike_joins {join : JoinClause Select} {joins : List (JoinClause Select)}
    (othersFollow : Follows dialect laterWords others) :
    ¬ Alike dialect position (following ((join :: joins).map Select.fragmentsOfJoin) ++ rest)
      others := by
  obtain ⟨keyword, word, introduces, -, more, whole⟩ := exists_introduces_join join
  simp only [following, List.map_cons, List.flatMap_cons, List.cons_append, whole]
  exact introduces.not_alike othersFollow

/-- Joins are told one after the other. -/
theorem joins_told {joins otherJoins : List (JoinClause Select)}
    (told : ∀ join ∈ joins, join.table.Holds (Select.Told dialect))
    (areWritable : ∀ join ∈ joins, join.IsWritable)
    (othersWritable : ∀ join ∈ otherJoins, join.IsWritable)
    (follows : Follows dialect laterWords rest) (othersFollow : Follows dialect laterWords others)
    (alike : Alike dialect position (following (joins.map Select.fragmentsOfJoin) ++ rest)
      (following (otherJoins.map Select.fragmentsOfJoin) ++ others)) :
    List.Forall₂ (JoinClause.Rel Select.Agrees) joins otherJoins ∧
      ∃ next, Alike dialect next rest others := by
  induction joins generalizing otherJoins position with
  | nil =>
      cases otherJoins with
      | nil => exact ⟨.nil, position, alike⟩
      | cons other otherJoins => exact (not_alike_joins follows alike.symm).elim
  | cons join joins ih =>
      cases otherJoins with
      | nil => exact (not_alike_joins othersFollow alike).elim
      | cons other otherJoins =>
          simp only [following, List.map_cons, List.flatMap_cons, List.cons_append,
            List.append_assoc] at alike
          obtain ⟨agree, next, later⟩ := told_join (areWritable join List.mem_cons_self)
            (told join List.mem_cons_self) (othersWritable other List.mem_cons_self)
            (follows_joins joins follows) (follows_joins otherJoins othersFollow) alike.of_text
          obtain ⟨agreeAll, tails⟩ := ih
            (fun join member => told join (List.mem_cons_of_mem _ member))
            (fun join member => areWritable join (List.mem_cons_of_mem _ member))
            (fun join member => othersWritable join (List.mem_cons_of_mem _ member)) later
          exact ⟨.cons agree agreeAll, tails⟩

/-! ## Queries -/

theorem introduces_where :
    Introduces "WHERE " "WHERE" ["GROUP", "HAVING", "ORDER", "LIMIT"] :=
  ⟨by decide, by decide, by decide, by decide⟩

theorem introduces_groupBy : Introduces "GROUP BY " "GROUP" ["HAVING", "ORDER", "LIMIT"] :=
  ⟨by decide, by decide, by decide, by decide⟩

theorem introduces_having : Introduces "HAVING " "HAVING" ["ORDER", "LIMIT"] :=
  ⟨by decide, by decide, by decide, by decide⟩

theorem introduces_orderBy : Introduces "ORDER BY " "ORDER" ["LIMIT"] :=
  ⟨by decide, by decide, by decide, by decide⟩

namespace Select

/-! What is written from each clause on, before the rest of a text. -/

def fromLimit (select : Select) (rest : List Fragment) : List Fragment :=
  following (limitFragments select.limit) ++ rest

def fromOrderBy (select : Select) (rest : List Fragment) : List Fragment :=
  following (listFragments "ORDER BY " (select.orderBy.map Expr.fragmentsOfTerm)) ++
    select.fromLimit rest

def fromHaving (select : Select) (rest : List Fragment) : List Fragment :=
  following (optionalFragments "HAVING " select.having) ++ select.fromOrderBy rest

def fromGroupBy (select : Select) (rest : List Fragment) : List Fragment :=
  following (listFragments "GROUP BY " (select.groupBy.map Expr.fragments)) ++ select.fromHaving rest

def fromFilter (select : Select) (rest : List Fragment) : List Fragment :=
  following (optionalFragments "WHERE " select.filter) ++ select.fromGroupBy rest

def fromJoins (select : Select) (rest : List Fragment) : List Fragment :=
  following (select.joins.map fragmentsOfJoin) ++ select.fromFilter rest

theorem fragments_append (select : Select) (rest : List Fragment) :
    select.fragments ++ rest = .text "SELECT " ::
      (joined ", " (select.columns.map columnFragments) ++ .text " " :: .text "FROM " ::
        (fragmentsOfTable select.source ++ select.fromJoins rest)) := by
  obtain ⟨columns, source, joins, filter, groupBy, having, orderBy, limit⟩ := select
  simp [fragments, joined_cons, fromJoins, fromFilter, fromGroupBy, fromHaving, fromOrderBy,
    fromLimit, following, fragmentsOfJoins_eq_map, Expr.fragmentsOfList_eq_map,
    Expr.fragmentsOfTerms_eq_map]

variable (select : Select)

theorem follows_fromLimit (last : Follows dialect [] rest) :
    Follows dialect ["LIMIT"] (select.fromLimit rest) :=
  follows_limitFragments _ last

theorem follows_fromOrderBy (last : Follows dialect [] rest) :
    Follows dialect ["ORDER", "LIMIT"] (select.fromOrderBy rest) :=
  follows_listFragments introduces_orderBy _ (select.follows_fromLimit last)

theorem follows_fromHaving (last : Follows dialect [] rest) :
    Follows dialect ["HAVING", "ORDER", "LIMIT"] (select.fromHaving rest) :=
  follows_optionalFragments introduces_having _ (select.follows_fromOrderBy last)

theorem follows_fromGroupBy (last : Follows dialect [] rest) :
    Follows dialect ["GROUP", "HAVING", "ORDER", "LIMIT"] (select.fromGroupBy rest) :=
  follows_listFragments introduces_groupBy _ (select.follows_fromHaving last)

theorem follows_fromFilter (last : Follows dialect [] rest) :
    Follows dialect laterWords (select.fromFilter rest) :=
  follows_optionalFragments introduces_where _ (select.follows_fromGroupBy last)

theorem follows_fromJoins (last : Follows dialect [] rest) :
    Follows dialect clauseWords (select.fromJoins rest) :=
  follows_joins select.joins (select.follows_fromFilter last)

variable {select}

/-- What holds of the queries that a query reads holds of those in its tables. -/
theorem holds_source {holds : Select → Prop} (reads : ∀ inner, select.Reads inner → holds inner) :
    select.source.Holds holds :=
  fun inner label found => reads inner (.inl ⟨label, found⟩)

theorem holds_join {holds : Select → Prop} (reads : ∀ inner, select.Reads inner → holds inner) :
    ∀ join ∈ select.joins, join.table.Holds holds :=
  fun join member inner label found => reads inner (.inr ⟨join, member, label, found⟩)

/-- The columns of two queries are told. -/
theorem columns_told {columns otherColumns : List (Expr × String)}
    (writable : ∀ column ∈ columns, column.1.IsWritable)
    (othersWritable : ∀ column ∈ otherColumns, column.1.IsWritable)
    (alike : Alike dialect position
      (joined ", " (columns.map columnFragments) ++ .text " " :: .text "FROM " :: rest)
      (joined ", " (otherColumns.map columnFragments) ++ .text " " :: .text "FROM " :: others)) :
    List.Forall₂ ColumnAgrees columns otherColumns ∧ ∃ next, Alike dialect next rest others := by
  have breaks (fragments : List Fragment) :
      Breaks dialect ", " (.text " " :: .text "FROM " :: fragments) :=
    breaks_of_head? ',' rfl (by simp)
  obtain ⟨agree, next, sources⟩ := forall₂_of_joined ends_comma
    (fun _ isWritable fragments _ => column_begins isWritable fragments)
    (fun column member => told_outputColumn (writable column member)) writable othersWritable
    (fun _ => rfl) (fun _ => rfl) (breaks _) (breaks _) alike
  exact ⟨agree, next, sources.of_text.of_text⟩

/-- Every query is told by its writing. -/
theorem told (writable : select.IsWritable) : select.Told dialect := by
  induction writable with
  | @mk select exprs inner ih =>
      rintro other position rest others ⟨otherExprs, otherInner⟩ last othersLast alike
      obtain ⟨columns, conditions, filter, groupBy, having, orderBy⟩ := forall_exprs_iff.mp exprs
      obtain ⟨otherColumns, otherConditions, otherFilter, otherGroupBy, otherHaving, otherOrderBy⟩ :=
        forall_exprs_iff.mp otherExprs
      rw [fragments_append, fragments_append] at alike
      obtain ⟨sameColumns, _, alike⟩ := columns_told columns otherColumns alike.of_text
      obtain ⟨sameSource, _, alike⟩ := told_table (holds_source ih) (holds_source otherInner)
        (select.follows_fromJoins last).ends (other.follows_fromJoins othersLast).ends alike
      obtain ⟨sameJoins, _, alike⟩ := joins_told (holds_join ih)
        (fun join member => ⟨conditions join member, holds_join inner join member⟩)
        (fun join member => ⟨otherConditions join member, holds_join otherInner join member⟩)
        (select.follows_fromFilter last) (other.follows_fromFilter othersLast) alike
      obtain ⟨sameFilter, _, alike⟩ := optionalFragments_told introduces_where filter otherFilter
        (select.follows_fromGroupBy last) (other.follows_fromGroupBy othersLast) alike
      obtain ⟨sameGroupBy, _, alike⟩ := listFragments_told introduces_groupBy
        (fun _ writable _ => Expr.begins writable) (fun expr member => Expr.told (groupBy expr member))
        groupBy otherGroupBy (select.follows_fromHaving last) (other.follows_fromHaving othersLast)
        alike
      obtain ⟨sameHaving, _, alike⟩ := optionalFragments_told introduces_having having otherHaving
        (select.follows_fromOrderBy last) (other.follows_fromOrderBy othersLast) alike
      obtain ⟨sameOrderBy, _, alike⟩ := listFragments_told introduces_orderBy
        (fun _ writable fragments _ => term_begins writable fragments)
        (fun term member => told_term (Expr.told (orderBy term member))) orderBy otherOrderBy
        (select.follows_fromLimit last) (other.follows_fromLimit othersLast) alike
      obtain ⟨sameLimit, next, alike⟩ := limitFragments_told last othersLast alike
      exact ⟨.mk sameColumns sameSource sameJoins sameFilter sameGroupBy sameHaving sameOrderBy
        sameLimit, next, alike⟩

end Select

/-! ## Agreement -/

theorem optionalFragments_eq_of_rel (keyword : String) {content other : Option Expr}
    (writable : ∀ expr ∈ content, expr.IsWritable) (agree : Option.Rel Expr.Agrees content other) :
    optionalFragments keyword content = optionalFragments keyword other := by
  cases agree with
  | none => rfl
  | some agree =>
      rw [optionalFragments, optionalFragments, Expr.fragments_eq_of_agrees (writable _ rfl) agree]

theorem fragmentsOfTable_eq_of_rel {table other : TableRef Select}
    (same : table.Holds fun query => ∀ select, query.Agrees select →
      query.fragments = select.fragments)
    (agree : TableRef.Rel Select.Agrees table other) :
    Select.fragmentsOfTable table = Select.fragmentsOfTable other := by
  cases agree with
  | table name => rfl
  | derived label agree =>
      rw [Select.fragmentsOfTable, Select.fragmentsOfTable, same _ label rfl _ agree]

theorem fragmentsOfJoin_eq_of_rel {join other : JoinClause Select}
    (writable : ∀ expr ∈ join.condition, expr.IsWritable)
    (same : join.table.Holds fun query => ∀ select, query.Agrees select →
      query.fragments = select.fragments)
    (agree : JoinClause.Rel Select.Agrees join other) :
    Select.fragmentsOfJoin join = Select.fragmentsOfJoin other := by
  cases agree with
  | cross _ _ _ _ agree =>
      rw [Select.fragmentsOfJoin, Select.fragmentsOfJoin, fragmentsOfTable_eq_of_rel same agree]
  | leftOuter _ _ agree agreeCondition =>
      cases agreeCondition with
      | none =>
          rw [Select.fragmentsOfJoin, Select.fragmentsOfJoin, fragmentsOfTable_eq_of_rel same agree]
      | some agreeExpr =>
          rw [Select.fragmentsOfJoin, Select.fragmentsOfJoin, fragmentsOfTable_eq_of_rel same agree,
            Expr.fragments_eq_of_agrees (writable _ rfl) agreeExpr]

/-- Queries that agree are written in the same way. -/
theorem Select.fragments_eq_of_agrees {select other : Select} (writable : select.IsWritable)
    (agree : select.Agrees other) : select.fragments = other.fragments := by
  induction writable generalizing other with
  | @mk select exprs inner ih =>
      obtain ⟨columns, conditions, filter, groupBy, having, orderBy⟩ := forall_exprs_iff.mp exprs
      obtain ⟨agreeColumns, agreeSource, agreeJoins, agreeFilter, agreeGroupBy, agreeHaving,
        agreeOrderBy, sameLimit⟩ := agree
      have reads : ∀ query, select.Reads query → ∀ other, query.Agrees other →
          query.fragments = other.fragments := fun query read _ => ih query read
      have sameColumns : select.columns.map columnFragments = other.columns.map columnFragments :=
        map_eq_of_forall₂ agreeColumns fun column member _ agree => by
          rw [columnFragments, columnFragments,
            Expr.fragments_eq_of_agrees (columns column member) agree.1, agree.2]
      have sameJoins := map_eq_of_forall₂ agreeJoins fun join member _ =>
        fragmentsOfJoin_eq_of_rel (conditions join member) (holds_join reads join member)
      have sameGroupBy := map_eq_of_forall₂ agreeGroupBy fun expr member _ =>
        Expr.fragments_eq_of_agrees (groupBy expr member)
      have sameOrderBy := map_eq_of_forall₂ agreeOrderBy fun term member _ =>
        fragmentsOfTerm_eq_of_rel fun _ => Expr.fragments_eq_of_agrees (orderBy term member)
      have whole : select.fragments ++ [] = other.fragments ++ [] := by
        simp only [fragments_append, fromJoins, fromFilter, fromGroupBy, fromHaving, fromOrderBy,
          fromLimit]
        rw [sameColumns, fragmentsOfTable_eq_of_rel (holds_source reads) agreeSource, sameJoins,
          optionalFragments_eq_of_rel _ filter agreeFilter, sameGroupBy,
          optionalFragments_eq_of_rel _ having agreeHaving, sameOrderBy, sameLimit]
      rwa [List.append_nil, List.append_nil] at whole

/-! ## Statements -/

/-- Queries with the same statement agree: the text and the parameters of a statement tell its
query, up to what joins follow and the conditions of cross joins, and nothing else is lost. -/
theorem emit_eq_emit_iff (dialect : Dialect) {first second : Select}
    (firstWritable : first.IsWritable) (secondWritable : second.IsWritable) :
    first.emit dialect = second.emit dialect ↔ first.Agrees second := by
  constructor
  · intro same
    have chars : written dialect 1 first.fragments = written dialect 1 second.fragments := by
      rw [← Select.toList_sql_emit, ← Select.toList_sql_emit, same]
    have texts : boundTexts first.fragments = boundTexts second.fragments := by
      have params := congrArg Statement.params same
      rw [Select.emit_eq, Select.emit_eq] at params
      exact List.map_injective_iff.mpr (fun _ _ => Value.text.inj) params
    have alike : Alike dialect 1 (first.fragments ++ []) (second.fragments ++ []) := by
      rw [List.append_nil, List.append_nil]
      exact ⟨chars, texts⟩
    exact (Select.told firstWritable secondWritable .nil .nil alike).1
  · intro agree
    rw [Select.emit_eq, Select.emit_eq, Select.fragments_eq_of_agrees firstWritable agree]

/-- How many different people of no great age there are beside each team; the cross join may name
what it follows and carry a condition. -/
def peopleBesideTeams (condition : Option Expr) (relation : Option String) : Select where
  columns := [(.function "COUNT" true [.column "person" "id"], "people")]
  source := .table "person"
  joins := [{
    kind := .cross
    table := .derived { columns := [(.column "team" "id", "id")], source := .table "team" } "alias_0"
    condition
    relation }]
  filter := some (.logical .or [
    .binary .less (.column "person" "age") (.binary .minus (.integer 30) (.integer (-1))),
    .not (.binary .equal (.column "person" "name") (.value (.text "NOT")))])

theorem isWritable_peopleBesideTeams {condition : Option Expr} (relation : Option String)
    (writable : ∀ expr ∈ condition, expr.IsWritable) :
    (peopleBesideTeams condition relation).IsWritable := by
  have column (table name : String) : ∀ expr ∈ [Expr.column table name], expr.IsWritable := by
    simp [Expr.IsWritable.column]
  refine .mk (Select.forall_exprs_iff.mpr ⟨?_, ?_, ?_, nofun, nofun, nofun⟩) ?_
  · rintro _ (_ | ⟨_, ⟨⟩⟩)
    exact .function true (by decide) (column _ _)
  · rintro _ (_ | ⟨_, ⟨⟩⟩)
    exact writable
  · rintro _ ⟨⟩
    refine .logical .or (Nat.le_refl 2) ?_
    rintro _ (_ | ⟨_, _ | ⟨_, ⟨⟩⟩⟩)
    · exact .binary .less (.column _ _) (.binary .minus (.value _) (.value _))
    · exact .not (.binary .equal (.column _ _) (.value _))
  · rintro inner (⟨_, ⟨⟩⟩ | ⟨_, _ | ⟨_, ⟨⟩⟩, _, ⟨⟩⟩)
    refine .mk (column "team" "id") ?_
    rintro inner (⟨_, ⟨⟩⟩ | ⟨_, ⟨⟩, _⟩)

theorem emit_eq_emit_iff_peopleBesideTeams :
    (peopleBesideTeams none none).IsWritable ∧
      (peopleBesideTeams (some (.integer 1)) (some "member")).IsWritable ∧
      (peopleBesideTeams none none).emit .postgres =
        (peopleBesideTeams (some (.integer 1)) (some "member")).emit .postgres ∧
      (peopleBesideTeams none none).Agrees
        (peopleBesideTeams (some (.integer 1)) (some "member")) := by
  have plain : (peopleBesideTeams none none).IsWritable := isWritable_peopleBesideTeams none nofun
  have labelled : (peopleBesideTeams (some (.integer 1)) (some "member")).IsWritable := by
    refine isWritable_peopleBesideTeams (some "member") ?_
    rintro _ ⟨⟩
    exact .value _
  have same : (peopleBesideTeams none none).emit .postgres =
      (peopleBesideTeams (some (.integer 1)) (some "member")).emit .postgres := rfl
  exact ⟨plain, labelled, same, (emit_eq_emit_iff .postgres plain labelled).mp same⟩

end SemanticQuery.Sql
