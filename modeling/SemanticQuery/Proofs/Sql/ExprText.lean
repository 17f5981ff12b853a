import SemanticQuery.Proofs.Sql.Shape

/-!
# Expressions in SQL text

An expression is told by its writing.  Its shape says what it begins with; what stands between the
expressions in parentheses gives the operator or the connective.  Nothing that can follow an
expression goes on with it.
-/

namespace SemanticQuery.Sql

variable {dialect : Dialect} {position : Nat} {rest others : List Fragment}

/-- Terms of related expressions, with the same direction and the same place of nulls. -/
inductive OrderTerm.Rel {α : Type} (related : α → α → Prop) : OrderTerm α → OrderTerm α → Prop
  | mk {first second : α} (direction : Direction) (nullsLast : Bool) : related first second →
      Rel related ⟨first, direction, nullsLast⟩ ⟨second, direction, nullsLast⟩

/-- Expressions that are equal; floating point numbers are compared by their text. -/
inductive Expr.Agrees : Expr → Expr → Prop
  | column (table name : String) : Agrees (.column table name) (.column table name)
  | value {first second : Value} :
      ValueAgrees first second → Agrees (.value first) (.value second)
  | constant (text : String) : Agrees (.constant text) (.constant text)
  | binary (operator : Operator) {left right otherLeft otherRight : Expr} :
      Agrees left otherLeft → Agrees right otherRight →
      Agrees (.binary operator left right) (.binary operator otherLeft otherRight)
  | logical (connective : Connective) {operands others : List Expr} :
      List.Forall₂ Agrees operands others →
      Agrees (.logical connective operands) (.logical connective others)
  | not {operand other : Expr} : Agrees operand other → Agrees (.not operand) (.not other)
  | function (name : String) (distinct : Bool) {arguments others : List Expr} :
      List.Forall₂ Agrees arguments others →
      Agrees (.function name distinct arguments) (.function name distinct others)
  | cast (type : String) {operand other : Expr} :
      Agrees operand other → Agrees (.cast operand type) (.cast other type)
  | withinGroup (name : String) {arguments others : List Expr} {orderBy otherOrder : Expr} :
      List.Forall₂ Agrees arguments others → Agrees orderBy otherOrder →
      Agrees (.withinGroup name arguments orderBy) (.withinGroup name others otherOrder)
  | rowNumber {orderBy others : List (OrderTerm Expr)} :
      List.Forall₂ (OrderTerm.Rel Agrees) orderBy others →
      Agrees (.rowNumber orderBy) (.rowNumber others)

theorem Expr.fragmentsOfList_eq_map (exprs : List Expr) :
    Expr.fragmentsOfList exprs = exprs.map Expr.fragments := by
  induction exprs with
  | nil => rfl
  | cons expr rest ih => rw [Expr.fragmentsOfList, ih, List.map_cons]

theorem Expr.fragmentsOfTerms_eq_map (terms : List (OrderTerm Expr)) :
    Expr.fragmentsOfTerms terms = terms.map Expr.fragmentsOfTerm := by
  induction terms with
  | nil => rfl
  | cons term rest ih => rw [Expr.fragmentsOfTerms, ih, List.map_cons]

/-! ## Leaves -/

/-- An expression that its writing tells. -/
def Expr.Told (dialect : Dialect) (expr : Expr) : Prop :=
  IsTold dialect (Ends dialect) Expr.fragments Expr.IsWritable Expr.Agrees expr

theorem told_column (table name : String) : (Expr.column table name).Told dialect := by
  intro other position rest others otherWritable restEnds othersEnd alike
  have shape := Expr.shape_eq_of_alike (.column table name) otherWritable restEnds othersEnd alike
  obtain ⟨otherTable, otherName, rfl⟩ := Expr.eq_column_of_shape shape.symm
  simp only [Expr.fragments, List.cons_append, List.nil_append] at alike
  obtain ⟨rfl, afterTable⟩ := Alike.of_name (by simp) (by simp) alike
  obtain ⟨rfl, afterName⟩ := Alike.of_name (restEnds.head?_ne position rfl)
    (othersEnd.head?_ne position rfl) afterTable.of_text
  exact ⟨.column table name, position, afterName⟩

theorem told_constant (text : String) : (Expr.constant text).Told dialect := by
  intro other position rest others otherWritable restEnds othersEnd alike
  have shape := Expr.shape_eq_of_alike (.constant text) otherWritable restEnds othersEnd alike
  obtain ⟨otherText, rfl⟩ := Expr.eq_constant_of_shape shape.symm
  obtain ⟨rfl, later⟩ := Alike.of_constant (restEnds.head?_ne position rfl)
    (othersEnd.head?_ne position rfl) alike
  exact ⟨.constant text, position, later⟩

theorem told_value (content : Value) : (Expr.value content).Told dialect := by
  intro other position rest others otherWritable restEnds othersEnd alike
  have shape := Expr.shape_eq_of_alike (.value content) otherWritable restEnds othersEnd alike
  rcases Expr.shape_value_cases content with ⟨text, rfl, found⟩ | ⟨word, fragment, found⟩
  · obtain ⟨otherText, rfl⟩ := Expr.eq_text_of_shape (shape.symm.trans found)
    obtain ⟨rfl, later⟩ := Alike.of_bound alike
    exact ⟨.value rfl, position + 1, later⟩
  · obtain ⟨otherContent, otherWord, rfl, otherFragment, sameChars⟩ :=
      Expr.eq_value_of_shape (shape.symm.trans found)
    obtain rfl : otherWord = word := String.toList_inj.mp sameChars
    simp only [Expr.fragments, fragment, otherFragment] at alike
    exact ⟨.value (valueAgrees_of_valueFragment fragment otherFragment), position, alike.of_text⟩

/-! ## Operators and connectives -/

/-- What stands between the expressions of a chain. -/
inductive Joint where
  | between (operator : Operator)
  | among (connective : Connective)
  deriving DecidableEq

namespace Joint

def word : Joint → String
  | .between operator => operator.symbol
  | .among .and => "AND"
  | .among .or => "OR"

def separator (joint : Joint) : String :=
  " " ++ joint.word ++ " "

def all : List Joint :=
  Operator.all.map .between ++ [.among .and, .among .or]

theorem mem_all (joint : Joint) : joint ∈ all := by
  cases joint with
  | between operator => cases operator <;> decide
  | among connective => cases connective <;> decide

theorem isBare_word (joint : Joint) : IsBare joint.word.toList := by
  have bare : ∀ joint ∈ all, IsBare joint.word.toList := by decide +kernel
  exact bare joint joint.mem_all

theorem word_injective {first second : Joint} (same : first.word = second.word) :
    first = second := by
  have injective : ∀ first ∈ all, ∀ second ∈ all, first.word = second.word → first = second := by
    decide +kernel
  exact injective first first.mem_all second second.mem_all same

theorem ends_separator (joint : Joint) (fragments : List Fragment) :
    Ends dialect (.text joint.separator :: fragments) := by
  intro position
  cases joint with
  | between operator => cases operator <;> rfl
  | among connective => cases connective <;> rfl

theorem head?_separator (joint : Joint) : joint.separator.toList.head? = some ' ' := by
  simp [separator]

end Joint

namespace Expr

variable {expr other : Expr} {joint : Joint} {items otherItems : List Expr}

def chain : Expr → Option (Joint × List Expr)
  | .binary operator left right => some (.between operator, [left, right])
  | .logical connective operands => some (.among connective, operands)
  | _ => none

theorem fragments_of_chain (isChain : expr.chain = some (joint, items)) :
    expr.fragments = .text "(" :: joined joint.separator (items.map Expr.fragments) ++
      [.text ")"] := by
  cases expr with
  | binary operator left right =>
      cases isChain
      rw [List.map_cons, joined_cons]
      simp [Expr.fragments, Joint.separator, Joint.word]
  | logical connective operands =>
      cases isChain
      rw [Expr.fragments, Expr.fragmentsOfList_eq_map]
      cases connective <;> rfl
  | _ => cases isChain

theorem agrees_of_chain (isChain : expr.chain = some (joint, items))
    (otherChain : other.chain = some (joint, otherItems))
    (agree : List.Forall₂ Expr.Agrees items otherItems) : expr.Agrees other := by
  cases expr <;> cases isChain <;> cases other <;> cases otherChain
  case binary.refl.binary.refl =>
    obtain _ | ⟨left, _ | ⟨right, -⟩⟩ := agree
    exact .binary _ left right
  case logical.refl.logical.refl => exact .logical _ agree

/-- In parentheses stands a chain or a negation. -/
theorem group_cases (writable : expr.IsWritable) (shape : expr.shape = .group) :
    (∃ operand, expr = .not operand ∧ operand.IsWritable) ∨
      ∃ joint items, expr.chain = some (joint, items) ∧ 2 ≤ items.length ∧
        ∀ item ∈ items, item.IsWritable := by
  cases writable with
  | not operand => exact .inl ⟨_, rfl, operand⟩
  | binary operator left right =>
      refine .inr ⟨_, _, rfl, Nat.le_refl 2, ?_⟩
      simp [left, right]
  | logical connective long operands => exact .inr ⟨_, _, rfl, long, operands⟩
  | value content =>
      rcases shape_value_cases content with ⟨_, _, found⟩ | ⟨_, _, found⟩ <;> simp [found] at shape
  | _ => simp [Expr.shape] at shape

end Expr

theorem exists_two_of_length {items : List Expr} (long : 2 ≤ items.length) :
    ∃ first second later, items = first :: second :: later := by
  match items, long with
  | first :: second :: later, _ => exact ⟨first, second, later, rfl⟩

/-- A chain of expressions tells what stands between them. -/
theorem eq_of_chain {joint otherJoint : Joint} {items otherItems : List Expr}
    (long : 2 ≤ items.length) (othersLong : 2 ≤ otherItems.length)
    (told : ∀ item ∈ items, item.Told dialect) (othersWritable : ∀ item ∈ otherItems, item.IsWritable)
    (alike : Alike dialect position
      (joined joint.separator (items.map Expr.fragments) ++ .text ")" :: rest)
      (joined otherJoint.separator (otherItems.map Expr.fragments) ++ .text ")" :: others)) :
    joint = otherJoint ∧ List.Forall₂ Expr.Agrees items otherItems ∧
      ∃ next, Alike dialect next rest others := by
  obtain ⟨first, second, later, rfl⟩ := exists_two_of_length long
  obtain ⟨otherFirst, otherSecond, otherLater, rfl⟩ := exists_two_of_length othersLong
  rw [joined_map_cons, joined_map_cons, List.append_assoc, List.append_assoc] at alike
  obtain ⟨agree, next, tails⟩ := told first List.mem_cons_self
    (othersWritable otherFirst List.mem_cons_self) (joint.ends_separator _)
    (otherJoint.ends_separator _) alike
  -- The first separators give the word; then all of them are the same.
  obtain ⟨sameWord, -⟩ := Alike.of_word joint.isBare_word otherJoint.isBare_word (by simp) (by simp)
    tails.divide.of_append
  obtain rfl := Joint.word_injective sameWord
  have closes (fragments : List Fragment) : Closes dialect (.text ")" :: fragments) := fun _ => rfl
  obtain ⟨agreeLater, last, closed⟩ := forall₂_of_separated joint.ends_separator
    (fun item member => told item (List.mem_cons_of_mem _ member))
    (fun item member => othersWritable item (List.mem_cons_of_mem _ member))
    (closes rest).ends (closes others).ends
    ((closes rest).breaks ' ' joint.head?_separator (by decide))
    ((closes others).breaks ' ' joint.head?_separator (by decide)) tails
  exact ⟨rfl, .cons agree agreeLater, last, closed.of_text⟩

/-- A chain is not written like a negation. -/
theorem not_alike_negation {joint : Joint} {items : List Expr} (long : 2 ≤ items.length)
    (areWritable : ∀ item ∈ items, item.IsWritable) :
    ¬ Alike dialect position
      (.text "(" :: (joined joint.separator (items.map Expr.fragments) ++ rest))
      (.text "(NOT " :: others) := by
  obtain ⟨first, second, later, rfl⟩ := exists_two_of_length long
  intro alike
  have keyword : "(NOT " = "(" ++ "NOT " := rfl
  have chars := alike.chars
  rw [keyword, written_text, written_text, String.toList_append, List.append_assoc,
    List.append_cancel_left_eq, joined_map_cons, List.append_assoc] at chars
  exact first.written_ne_keyword (areWritable first List.mem_cons_self) (joint.ends_separator _)
    "NOT" (by decide) _ chars

theorem told_of_chain {expr : Expr} {joint : Joint} {items : List Expr}
    (isChain : expr.chain = some (joint, items)) (writable : expr.IsWritable)
    (long : 2 ≤ items.length) (areWritable : ∀ item ∈ items, item.IsWritable)
    (told : ∀ item ∈ items, item.Told dialect) : expr.Told dialect := by
  intro other position rest others otherWritable restEnds othersEnd alike
  have isGroup : expr.shape = .group := by cases expr <;> cases isChain <;> rfl
  have shape := Expr.shape_eq_of_alike writable otherWritable restEnds othersEnd alike
  rcases Expr.group_cases otherWritable (shape.symm.trans isGroup) with
    ⟨operand, rfl, -⟩ | ⟨otherJoint, otherItems, otherChain, othersLong, othersWritable⟩
  · simp only [Expr.fragments_of_chain isChain, Expr.fragments, List.cons_append,
      List.append_assoc, List.nil_append] at alike
    exact (not_alike_negation long areWritable alike).elim
  · simp only [Expr.fragments_of_chain isChain, Expr.fragments_of_chain otherChain,
      List.cons_append, List.append_assoc, List.nil_append] at alike
    obtain ⟨rfl, agree, tails⟩ := eq_of_chain long othersLong told othersWritable alike.of_text
    exact ⟨Expr.agrees_of_chain isChain otherChain agree, tails⟩

theorem told_negation {operand : Expr} (writable : operand.IsWritable)
    (told : operand.Told dialect) : (Expr.not operand).Told dialect := by
  intro other position rest others otherWritable restEnds othersEnd alike
  have shape := Expr.shape_eq_of_alike (.not writable) otherWritable restEnds othersEnd alike
  rcases Expr.group_cases otherWritable shape.symm with
    ⟨otherOperand, rfl, operandWritable⟩ |
      ⟨otherJoint, otherItems, otherChain, othersLong, othersWritable⟩
  · simp only [Expr.fragments, List.cons_append, List.append_assoc, List.nil_append] at alike
    obtain ⟨agree, next, closed⟩ := told operandWritable (Closes.ends fun _ => rfl)
      (Closes.ends fun _ => rfl) alike.of_text
    exact ⟨.not agree, next, closed.of_text⟩
  · simp only [Expr.fragments_of_chain otherChain, Expr.fragments, List.cons_append,
      List.append_assoc, List.nil_append] at alike
    exact (not_alike_negation othersLong othersWritable alike.symm).elim

/-! ## Calls -/

theorem ends_comma (fragments : List Fragment) : Ends dialect (.text ", " :: fragments) :=
  fun _ => rfl

/-- Arguments are told one after the other. -/
theorem arguments_told {arguments otherArguments : List Expr}
    (told : ∀ argument ∈ arguments, argument.Told dialect)
    (areWritable : ∀ argument ∈ arguments, argument.IsWritable)
    (othersWritable : ∀ argument ∈ otherArguments, argument.IsWritable)
    (closes : Closes dialect rest) (othersClose : Closes dialect others)
    (alike : Alike dialect position (joined ", " (arguments.map Expr.fragments) ++ rest)
      (joined ", " (otherArguments.map Expr.fragments) ++ others)) :
    List.Forall₂ Expr.Agrees arguments otherArguments ∧ ∃ next, Alike dialect next rest others :=
  forall₂_of_joined ends_comma (fun _ writable _ => Expr.begins writable) told areWritable
    othersWritable closes.ends othersClose.ends (closes.breaks ',' rfl (by decide))
    (othersClose.breaks ',' rfl (by decide)) alike

/-- Arguments do not begin with a keyword. -/
theorem arguments_ne_keyword {arguments : List Expr}
    (areWritable : ∀ argument ∈ arguments, argument.IsWritable) (closes : Closes dialect rest)
    (chars : List Char) :
    written dialect position (joined ", " (arguments.map Expr.fragments) ++ rest) ≠
      "DISTINCT ".toList ++ chars := by
  cases arguments with
  | nil =>
      intro same
      have first := closes position
      rw [List.map_nil, joined, List.intercalate_nil, List.nil_append] at same
      rw [same] at first
      cases first
  | cons argument arguments =>
      rw [joined_map_cons, List.append_assoc]
      exact argument.written_ne_keyword (areWritable argument List.mem_cons_self)
        (stops_separated ends_comma arguments closes.ends) "DISTINCT" (by decide) chars

def distinctText (distinct : Bool) : String :=
  if distinct then "DISTINCT " else ""

/-- The arguments of two calls of one function are told, and whether only distinct rows count. -/
theorem call_told {name : String} {distinct otherDistinct : Bool}
    {arguments otherArguments : List Expr}
    (told : ∀ argument ∈ arguments, argument.Told dialect)
    (areWritable : ∀ argument ∈ arguments, argument.IsWritable)
    (othersWritable : ∀ argument ∈ otherArguments, argument.IsWritable)
    (closes : Closes dialect rest) (othersClose : Closes dialect others)
    (alike : Alike dialect position
      (.text (name ++ "(" ++ distinctText distinct) ::
        (joined ", " (arguments.map Expr.fragments) ++ rest))
      (.text (name ++ "(" ++ distinctText otherDistinct) ::
        (joined ", " (otherArguments.map Expr.fragments) ++ others))) :
    distinct = otherDistinct ∧ List.Forall₂ Expr.Agrees arguments otherArguments ∧
      ∃ next, Alike dialect next rest others := by
  have inside := alike.of_append
  cases distinct <;> cases otherDistinct
  case false.false | true.true =>
    exact ⟨rfl, arguments_told told areWritable othersWritable closes othersClose inside.of_text⟩
  case false.true => exact (arguments_ne_keyword areWritable closes _ inside.chars).elim
  case true.false => exact (arguments_ne_keyword othersWritable othersClose _ inside.chars.symm).elim

/-- What is called is a function, with or without an order of rows, or a form of its own. -/
theorem Expr.call_cases {expr : Expr} (writable : expr.IsWritable) (name : String)
    (shape : expr.shape = .call name.toList) :
    (∃ distinct arguments, expr = .function name distinct arguments ∧ name ∈ functionNames ∧
        ∀ argument ∈ arguments, argument.IsWritable) ∨
      (∃ arguments orderBy, expr = .withinGroup name arguments orderBy ∧ name ∈ functionNames ∧
        (∀ argument ∈ arguments, argument.IsWritable) ∧ orderBy.IsWritable) ∨
      (∃ operand type, expr = .cast operand type ∧ name = "CAST" ∧ type ∈ castTypes ∧
        operand.IsWritable) ∨
      ∃ orderBy, expr = .rowNumber orderBy ∧ name = "ROW_NUMBER" ∧
        ∀ term ∈ orderBy, term.expr.IsWritable := by
  cases writable with
  | function distinct listed arguments =>
      obtain rfl := String.toList_inj.mp (Shape.call.inj shape)
      exact .inl ⟨distinct, _, rfl, listed, arguments⟩
  | withinGroup listed arguments orderBy =>
      obtain rfl := String.toList_inj.mp (Shape.call.inj shape)
      exact .inr (.inl ⟨_, _, rfl, listed, arguments, orderBy⟩)
  | cast listed operand =>
      have same := String.toList_inj.mp (Shape.call.inj shape)
      exact .inr (.inr (.inl ⟨_, _, rfl, same.symm, listed, operand⟩))
  | rowNumber terms =>
      have same := String.toList_inj.mp (Shape.call.inj shape)
      exact .inr (.inr (.inr ⟨_, rfl, same.symm, terms⟩))
  | value content =>
      rcases shape_value_cases content with ⟨_, _, found⟩ | ⟨_, _, found⟩ <;> simp [found] at shape
  | _ => simp [Expr.shape] at shape

theorem not_mem_functionNames {name : String} (listed : name ∈ functionNames) :
    name ≠ "CAST" ∧ name ≠ "ROW_NUMBER" := by
  have unlisted : ∀ name ∈ functionNames, name ≠ "CAST" ∧ name ≠ "ROW_NUMBER" := by decide +kernel
  exact unlisted name listed

/-- The arguments of a call, told of both forms of it. -/
theorem fragments_function (name : String) (distinct : Bool) (arguments : List Expr) :
    (Expr.function name distinct arguments).fragments ++ rest =
      .text (name ++ "(" ++ distinctText distinct) ::
        (joined ", " (arguments.map Expr.fragments) ++ .text ")" :: rest) := by
  simp [Expr.fragments, Expr.fragmentsOfList_eq_map, distinctText]

theorem fragments_withinGroup (name : String) (arguments : List Expr) (orderBy : Expr) :
    (Expr.withinGroup name arguments orderBy).fragments ++ rest =
      .text (name ++ "(" ++ distinctText false) ::
        (joined ", " (arguments.map Expr.fragments) ++ .text ") WITHIN GROUP (ORDER BY " ::
          (orderBy.fragments ++ .text ")" :: rest)) := by
  simp [Expr.fragments, Expr.fragmentsOfList_eq_map, distinctText]

/-- A call that has ended does not go on with an order of rows. -/
theorem not_alike_within (ends : Ends dialect rest) :
    ¬ Alike dialect position (.text ")" :: rest) (.text ") WITHIN GROUP (ORDER BY " :: others) := by
  intro alike
  have goesOn : ") WITHIN GROUP (ORDER BY " = ")" ++ " WITHIN GROUP (ORDER BY " := rfl
  have chars := alike.chars
  rw [goesOn, written_text, written_text, String.toList_append, List.append_assoc,
    List.append_cancel_left_eq] at chars
  refine ends.not_continuation position " WITHIN" (by decide) ?_
  rw [chars]
  have start : " WITHIN".toList <+: " WITHIN GROUP (ORDER BY ".toList := by decide
  exact start.trans (List.prefix_append _ _)

theorem told_function {name : String} (distinct : Bool) {arguments : List Expr}
    (listed : name ∈ functionNames) (areWritable : ∀ argument ∈ arguments, argument.IsWritable)
    (told : ∀ argument ∈ arguments, argument.Told dialect) :
    (Expr.function name distinct arguments).Told dialect := by
  intro other position rest others otherWritable restEnds othersEnd alike
  have shape := Expr.shape_eq_of_alike (.function distinct listed areWritable) otherWritable
    restEnds othersEnd alike
  rcases Expr.call_cases otherWritable name shape.symm with
    ⟨otherDistinct, otherArguments, rfl, -, othersWritable⟩ |
      ⟨otherArguments, orderBy, rfl, -, othersWritable, -⟩ | ⟨_, _, -, isCast, -⟩ |
      ⟨_, -, isNumber, -⟩
  · rw [fragments_function, fragments_function] at alike
    obtain ⟨rfl, agree, next, closed⟩ := call_told told areWritable othersWritable (fun _ => rfl)
      (fun _ => rfl) alike
    exact ⟨.function name distinct agree, next, closed.of_text⟩
  · rw [fragments_function, fragments_withinGroup] at alike
    obtain ⟨-, -, next, closed⟩ := call_told told areWritable othersWritable (fun _ => rfl)
      (fun _ => rfl) alike
    exact (not_alike_within restEnds closed).elim
  · exact absurd isCast (not_mem_functionNames listed).1
  · exact absurd isNumber (not_mem_functionNames listed).2

theorem told_withinGroup {name : String} {arguments : List Expr} {orderBy : Expr}
    (listed : name ∈ functionNames) (areWritable : ∀ argument ∈ arguments, argument.IsWritable)
    (orderWritable : orderBy.IsWritable) (told : ∀ argument ∈ arguments, argument.Told dialect)
    (orderTold : orderBy.Told dialect) :
    (Expr.withinGroup name arguments orderBy).Told dialect := by
  intro other position rest others otherWritable restEnds othersEnd alike
  have shape := Expr.shape_eq_of_alike (.withinGroup listed areWritable orderWritable) otherWritable
    restEnds othersEnd alike
  rcases Expr.call_cases otherWritable name shape.symm with
    ⟨otherDistinct, otherArguments, rfl, -, othersWritable⟩ |
      ⟨otherArguments, otherOrder, rfl, -, othersWritable, otherOrderWritable⟩ |
      ⟨_, _, -, isCast, -⟩ | ⟨_, -, isNumber, -⟩
  · rw [fragments_withinGroup, fragments_function] at alike
    obtain ⟨-, -, next, closed⟩ := call_told told areWritable othersWritable (fun _ => rfl)
      (fun _ => rfl) alike
    exact (not_alike_within othersEnd closed.symm).elim
  · rw [fragments_withinGroup, fragments_withinGroup] at alike
    obtain ⟨-, agree, next, ordered⟩ := call_told told areWritable othersWritable (fun _ => rfl)
      (fun _ => rfl) alike
    obtain ⟨agreeOrder, last, closed⟩ := orderTold otherOrderWritable
      (Closes.ends fun _ => rfl) (Closes.ends fun _ => rfl) ordered.of_text
    exact ⟨.withinGroup name agree agreeOrder, last, closed.of_text⟩
  · exact absurd isCast (not_mem_functionNames listed).1
  · exact absurd isNumber (not_mem_functionNames listed).2

theorem isBare_of_mem_castTypes {type : String} (listed : type ∈ castTypes) :
    IsBare type.toList := by
  have all : ∀ type ∈ castTypes, IsBare type.toList := by decide +kernel
  exact all type listed

theorem told_cast {operand : Expr} {type : String} (listed : type ∈ castTypes)
    (writable : operand.IsWritable) (told : operand.Told dialect) :
    (Expr.cast operand type).Told dialect := by
  intro other position rest others otherWritable restEnds othersEnd alike
  have shape := Expr.shape_eq_of_alike (.cast listed writable) otherWritable restEnds othersEnd alike
  rcases Expr.call_cases otherWritable "CAST" shape.symm with
    ⟨_, _, -, isFunction, -⟩ | ⟨_, _, -, isFunction, -⟩ |
      ⟨otherOperand, otherType, rfl, -, otherListed, otherOperandWritable⟩ | ⟨_, -, isNumber, -⟩
  · exact absurd rfl (not_mem_functionNames isFunction).1
  · exact absurd rfl (not_mem_functionNames isFunction).1
  · simp only [Expr.fragments, List.cons_append, List.append_assoc, List.nil_append] at alike
    have ends (type : String) (fragments : List Fragment) :
        Ends dialect (.text (" AS " ++ type ++ ")") :: fragments) := by
      intro position
      rw [written_text_append, written_text_append]
      rfl
    obtain ⟨agree, next, typed⟩ := told otherOperandWritable (ends type rest)
      (ends otherType others) alike.of_text
    obtain ⟨rfl, closed⟩ := Alike.of_word (isBare_of_mem_castTypes listed)
      (isBare_of_mem_castTypes otherListed) (by simp) (by simp) typed.divide.of_append
    exact ⟨.cast type agree, next, closed.of_text⟩
  · exact absurd isNumber (by decide)

/-! ## Orderings -/

def termEnding (direction : Direction) (nullsLast : Bool) : String :=
  directionText direction ++ if nullsLast then " NULLS LAST" else ""

theorem ends_termEnding (direction : Direction) (nullsLast : Bool) (fragments : List Fragment) :
    Ends dialect (.text (termEnding direction nullsLast) :: fragments) := by
  intro position
  cases direction <;> cases nullsLast <;> rfl

theorem termEnding_told {direction otherDirection : Direction} {nullsLast otherNullsLast : Bool}
    (restEnds : Ends dialect rest) (othersEnd : Ends dialect others)
    (alike : Alike dialect position (.text (termEnding direction nullsLast) :: rest)
      (.text (termEnding otherDirection otherNullsLast) :: others)) :
    direction = otherDirection ∧ nullsLast = otherNullsLast ∧
      Alike dialect position rest others := by
  have sameDirection : direction = otherDirection := by
    have chars := alike.chars
    cases direction <;> cases otherDirection <;> simp [termEnding, directionText] at chars ⊢
  subst sameDirection
  have nulls : " NULLS".toList <+: " NULLS LAST".toList := by decide
  have placed := alike.of_append
  cases nullsLast <;> cases otherNullsLast
  case false.false | true.true => exact ⟨rfl, rfl, placed.of_text⟩
  case false.true =>
    refine (restEnds.not_continuation position " NULLS" (by decide) ?_).elim
    have chars : written dialect position rest = " NULLS LAST".toList ++ _ := placed.chars
    rw [chars]
    exact nulls.trans (List.prefix_append _ _)
  case true.false =>
    refine (othersEnd.not_continuation position " NULLS" (by decide) ?_).elim
    have chars : written dialect position others = " NULLS LAST".toList ++ _ := placed.chars.symm
    rw [chars]
    exact nulls.trans (List.prefix_append _ _)

theorem fragmentsOfTerm_append (term : OrderTerm Expr) :
    Expr.fragmentsOfTerm term ++ rest = term.expr.fragments ++
      .text (termEnding term.direction term.nullsLast) :: rest := by
  cases term
  simp [Expr.fragmentsOfTerm, termEnding]

theorem told_term {term : OrderTerm Expr} (told : term.expr.Told dialect) :
    IsTold dialect (Ends dialect) Expr.fragmentsOfTerm (fun term => term.expr.IsWritable)
      (OrderTerm.Rel Expr.Agrees) term := by
  rintro ⟨other, otherDirection, otherNullsLast⟩ position rest others otherWritable restEnds
    othersEnd alike
  rw [fragmentsOfTerm_append, fragmentsOfTerm_append] at alike
  obtain ⟨agree, next, ending⟩ := told otherWritable (ends_termEnding _ _ _)
    (ends_termEnding _ _ _) alike
  obtain ⟨rfl, rfl, tails⟩ := termEnding_told restEnds othersEnd ending
  exact ⟨.mk _ _ agree, next, tails⟩

theorem term_begins {term : OrderTerm Expr} (writable : term.expr.IsWritable)
    (fragments : List Fragment) : Begins dialect (Expr.fragmentsOfTerm term ++ fragments) := by
  rw [fragmentsOfTerm_append]
  exact term.expr.begins writable (ends_termEnding _ _ _)

theorem told_rowNumber {terms : List (OrderTerm Expr)}
    (areWritable : ∀ term ∈ terms, term.expr.IsWritable)
    (told : ∀ term ∈ terms, term.expr.Told dialect) : (Expr.rowNumber terms).Told dialect := by
  intro other position rest others otherWritable restEnds othersEnd alike
  have shape := Expr.shape_eq_of_alike (.rowNumber areWritable) otherWritable restEnds othersEnd alike
  rcases Expr.call_cases otherWritable "ROW_NUMBER" shape.symm with
    ⟨_, _, -, isFunction, -⟩ | ⟨_, _, -, isFunction, -⟩ | ⟨_, _, -, isCast, -⟩ |
      ⟨otherTerms, rfl, -, othersWritable⟩
  · exact absurd rfl (not_mem_functionNames isFunction).2
  · exact absurd rfl (not_mem_functionNames isFunction).2
  · exact absurd isCast (by decide)
  · simp only [Expr.fragments, Expr.fragmentsOfTerms_eq_map, List.cons_append, List.append_assoc,
      List.nil_append] at alike
    have closes (fragments : List Fragment) : Closes dialect (.text ")" :: fragments) :=
      fun _ => rfl
    obtain ⟨agree, next, closed⟩ := forall₂_of_joined ends_comma
      (fun _ writable fragments _ => term_begins writable fragments)
      (fun term member => told_term (told term member)) areWritable othersWritable
      (closes rest).ends (closes others).ends ((closes rest).breaks ',' rfl (by decide))
      ((closes others).breaks ',' rfl (by decide)) alike.of_text
    exact ⟨.rowNumber agree, next, closed.of_text⟩

/-- Every expression is told by its writing. -/
theorem Expr.told {expr : Expr} (writable : expr.IsWritable) : expr.Told dialect := by
  induction writable with
  | column table name => exact told_column table name
  | value content => exact told_value content
  | constant text => exact told_constant text
  | @binary operator left right leftWritable rightWritable leftTold rightTold =>
      have isChain : (Expr.binary operator left right).chain =
          some (.between operator, [left, right]) := rfl
      refine told_of_chain isChain (.binary operator leftWritable rightWritable) (Nat.le_refl 2)
        ?_ ?_
      · simp [leftWritable, rightWritable]
      · simp [leftTold, rightTold]
  | logical connective long operands told =>
      exact told_of_chain rfl (.logical connective long operands) long operands told
  | not operand told => exact told_negation operand told
  | function distinct listed arguments told => exact told_function distinct listed arguments told
  | cast listed operand told => exact told_cast listed operand told
  | withinGroup listed arguments orderBy told orderTold =>
      exact told_withinGroup listed arguments orderBy told orderTold
  | rowNumber terms told => exact told_rowNumber terms told

/-! ## Agreement -/

theorem map_eq_of_forall₂ {α : Type} {write : α → List Fragment} {agrees : α → α → Prop}
    {items otherItems : List α} (agree : List.Forall₂ agrees items otherItems)
    (same : ∀ item ∈ items, ∀ other, agrees item other → write item = write other) :
    items.map write = otherItems.map write := by
  induction agree with
  | nil => rfl
  | @cons item other items otherItems agree _ ih =>
      rw [List.map_cons, List.map_cons, same item List.mem_cons_self other agree,
        ih fun item member => same item (List.mem_cons_of_mem _ member)]

theorem valueFragment_eq_of_agrees {first second : Value} (agree : ValueAgrees first second) :
    valueFragment first = valueFragment second := by
  cases first <;> cases second <;> simp_all [ValueAgrees, valueFragment]

theorem fragmentsOfTerm_eq_of_rel {term other : OrderTerm Expr}
    (same : ∀ expr, term.expr.Agrees expr → term.expr.fragments = expr.fragments)
    (agree : OrderTerm.Rel Expr.Agrees term other) :
    Expr.fragmentsOfTerm term = Expr.fragmentsOfTerm other := by
  cases agree with
  | mk direction nullsLast agree =>
      rw [Expr.fragmentsOfTerm, Expr.fragmentsOfTerm, same _ agree]

/-- Expressions that agree are written in the same way. -/
theorem Expr.fragments_eq_of_agrees {expr other : Expr} (writable : expr.IsWritable)
    (agree : expr.Agrees other) : expr.fragments = other.fragments := by
  induction writable generalizing other with
  | column table name | constant text =>
      cases agree
      rfl
  | value content =>
      cases agree with
      | value agree => rw [Expr.fragments, Expr.fragments, valueFragment_eq_of_agrees agree]
  | binary operator left right leftSame rightSame =>
      cases agree with
      | binary _ left right => rw [Expr.fragments, Expr.fragments, leftSame left, rightSame right]
  | logical connective long operands same =>
      cases agree with
      | logical _ agree =>
          rw [Expr.fragments, Expr.fragments, fragmentsOfList_eq_map, fragmentsOfList_eq_map,
            map_eq_of_forall₂ agree fun item member _ => same item member]
  | not operand same =>
      cases agree with
      | not agree => rw [Expr.fragments, Expr.fragments, same agree]
  | function distinct listed arguments same =>
      cases agree with
      | function _ _ agree =>
          rw [Expr.fragments, Expr.fragments, fragmentsOfList_eq_map, fragmentsOfList_eq_map,
            map_eq_of_forall₂ agree fun item member _ => same item member]
  | cast listed operand same =>
      cases agree with
      | cast _ agree => rw [Expr.fragments, Expr.fragments, same agree]
  | withinGroup listed arguments orderBy same sameOrder =>
      cases agree with
      | withinGroup _ agree agreeOrder =>
          rw [Expr.fragments, Expr.fragments, fragmentsOfList_eq_map, fragmentsOfList_eq_map,
            map_eq_of_forall₂ agree fun item member _ => same item member, sameOrder agreeOrder]
  | rowNumber terms same =>
      cases agree with
      | rowNumber agree =>
          rw [Expr.fragments, Expr.fragments, fragmentsOfTerms_eq_map, fragmentsOfTerms_eq_map,
            map_eq_of_forall₂ agree fun term member _ =>
              fragmentsOfTerm_eq_of_rel fun _ => same term member]

end SemanticQuery.Sql
