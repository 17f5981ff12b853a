import Mathlib.Data.Bool.AllAny
import Mathlib.Data.List.Infix
import SemanticQuery.Handle
import SemanticQuery.Proofs.Handle.OperandText
import SemanticQuery.Proofs.Step.Canonical

/-!
# Column names that tell handles apart

A column name is read by its delimiters: parentheses, commas and the `//` after an entity or the
alias of a subplan.  Handles in whose texts no delimiter stands, and in which every literal text is
written in one way, are told apart by their column names.  Picking one value of a group is left out:
it takes its operand's name.
-/

namespace SemanticQuery

/-- Where two texts first leave a class of characters, they have the same character. -/
theorem eq_of_append_cons_eq (inside : Char → Prop) {first second rest others : List Char}
    {one two : Char} (firstInside : ∀ c ∈ first, inside c) (secondInside : ∀ c ∈ second, inside c)
    (oneOutside : ¬ inside one) (twoOutside : ¬ inside two)
    (same : first ++ one :: rest = second ++ two :: others) :
    first = second ∧ one = two ∧ rest = others := by
  rcases List.append_eq_append_iff.mp same with ⟨between, rfl, tails⟩ | ⟨between, rfl, tails⟩
  · cases between with
    | nil =>
        cases tails
        simp
    | cons c more =>
        cases tails
        exact absurd (secondInside one (by simp)) oneOutside
  · cases between with
    | nil =>
        cases tails
        simp
    | cons c more =>
        cases tails
        exact absurd (firstInside two (by simp)) twoOutside

/-! ## Aliases of subplans -/

namespace SubplanId

theorem toList_text (id : SubplanId) :
    id.text.toList = "alias_".toList ++ Nat.toDigits 10 id.number := by
  rw [text, String.toList_append, Nat.toList_repr]

theorem text_injective {first second : SubplanId} (same : first.text = second.text) :
    first = second := by
  have digits := congrArg String.toList same
  rw [toList_text, toList_text, List.append_cancel_left_eq] at digits
  have numbers := congrArg (fun chars => Nat.ofDigitChars 10 chars 0) digits
  rw [Nat.ofDigitChars_ten_toDigits, Nat.ofDigitChars_ten_toDigits] at numbers
  cases first
  cases second
  exact congrArg SubplanId.mk numbers

/-- An alias holds neither delimiters nor slashes. -/
theorem not_mem_text (id : SubplanId) : ∀ c ∈ id.text.toList, isDelimiter c = false ∧ c ≠ '/' := by
  intro c member
  rw [toList_text, List.mem_append] at member
  rcases member with letter | digit
  · have letters : ∀ c ∈ "alias_".toList, isDelimiter c = false ∧ c ≠ '/' :=
      List.all_iff_forall_prop.mp (by decide)
    exact letters c letter
  · have isDigit := Nat.isDigit_of_mem_toDigits (by decide) (by decide) digit
    constructor
    · cases delimiter : isDelimiter c with
      | false => rfl
      | true =>
          simp only [isDelimiter, Bool.or_eq_true, decide_eq_true_eq] at delimiter
          rcases delimiter with (rfl | rfl) | rfl <;> cases isDigit
    · rintro rfl
      cases isDigit

end SubplanId

/-! ## Plain handles -/

def Literal.isQuoted : Literal → Bool
  | .quoted _ => true
  | .bare _ => false

theorem Literal.eq_of_content_eq {first second : Literal}
    (contents : first.content = second.content) (ways : first.isQuoted = second.isQuoted) :
    first = second := by
  cases first with
  | quoted text =>
      cases second with
      | quoted other => exact congrArg Literal.quoted contents
      | bare other => cases ways
  | bare text =>
      cases second with
      | quoted other => cases ways
      | bare other => exact congrArg Literal.bare contents

def HasNoDelimiter (text : String) : Prop :=
  ∀ c ∈ text.toList, isDelimiter c = false

/-- A name of an entity that reads as one in column names. -/
structure IsPlainEntity (entity : String) : Prop where
  noDelimiter : HasNoDelimiter entity
  noSlash : '/' ∉ entity.toList
  noAlias : ∀ id : SubplanId, entity ≠ id.text

/-- A literal that reads as one in column names, of a text that is always written this way. -/
structure IsPlainLiteral (isQuoted : String → Bool) (literal : Literal) : Prop where
  nonempty : literal.content ≠ ""
  noDelimiter : HasNoDelimiter literal.content
  noSlashes : ¬ ['/', '/'] <:+: literal.content.toList
  oneWay : literal.isQuoted = isQuoted literal.content

/-- A handle whose column name can be read.  Directions stand in row numbers only, where literals do
not. -/
inductive Handle.IsPlain (isQuoted : String → Bool) : Handle → Prop where
  | field {entity name : String} (entityPlain : IsPlainEntity entity)
      (namePlain : HasNoDelimiter name) : IsPlain isQuoted (.field entity name)
  | expression {operation : Operation} {operands : List Operand} (other : operation ≠ .getOne)
      (handles : ∀ inner, .handle inner ∈ operands → IsPlain isQuoted inner)
      (literals : ∀ literal, .literal literal ∈ operands →
        operation ≠ .rowNumber ∧ IsPlainLiteral isQuoted literal)
      (directions : ∀ direction, .direction direction ∈ operands → operation = .rowNumber) :
      IsPlain isQuoted (.expression operation operands)
  | column {subplan : SubplanId} {origin : Handle} (plain : IsPlain isQuoted origin) :
      IsPlain isQuoted (.column subplan origin.columnName origin)

/-! ## The texts of column names -/

theorem Operand.names_eq_map (operands : List Operand) :
    Operand.names operands = operands.map Operand.name := by
  induction operands with
  | nil => rfl
  | cons operand rest ih => rw [Operand.names, ih, List.map_cons]

namespace Handle

theorem toList_columnName_field (entity name : String) :
    (columnName (.field entity name)).toList = entity.toList ++ '/' :: '/' :: name.toList := by
  simp [columnName]

theorem toList_columnName_column (subplan : SubplanId) (name : String) (origin : Handle) :
    (columnName (.column subplan name origin)).toList =
      subplan.text.toList ++ '/' :: '/' :: name.toList := by
  simp [columnName]

theorem toList_columnName_expression {operation : Operation} (other : operation ≠ .getOne)
    (operands : List Operand) :
    (columnName (.expression operation operands)).toList =
      operation.name.toList ++
        '(' :: operandText (operands.map fun operand => operand.name.toList) := by
  have written : columnName (.expression operation operands) =
      operation.name ++ "(" ++ String.intercalate "," (Operand.names operands) ++ ")" := by
    cases operation with
    | getOne => exact absurd rfl other
    | _ => rfl
  simp [written, operandText, Operand.names_eq_map, Function.comp_def]

end Handle

theorem Operation.not_mem_name (operation : Operation) :
    ∀ c ∈ operation.name.toList, isDelimiter c = false ∧ c ≠ '/' := by
  cases operation <;> exact List.all_iff_forall_prop.mp (by decide)

theorem Direction.hasNoDelimiter_name (direction : Direction) : HasNoDelimiter direction.name := by
  cases direction <;> exact List.all_iff_forall_prop.mp (by decide)

namespace Handle.IsPlain

variable {isQuoted : String → Bool} {handle other : Handle}

/-- A plain handle's column name is closed. -/
theorem isClosed_columnName (plain : handle.IsPlain isQuoted) :
    IsClosed handle.columnName.toList := by
  induction plain with
  | field entityPlain namePlain =>
      rw [toList_columnName_field]
      refine (IsClosed.of_forall entityPlain.noDelimiter).append (IsClosed.of_forall ?_)
      intro c member
      rcases List.mem_cons.mp member with rfl | member
      · rfl
      · rcases List.mem_cons.mp member with rfl | member
        · rfl
        · exact namePlain c member
  | @expression operation operands other handles literals directions ih =>
      have closed : ∀ name ∈ operands.map (fun operand => operand.name.toList), IsClosed name := by
        intro name member
        obtain ⟨operand, operandMember, rfl⟩ := List.mem_map.mp member
        cases operand with
        | handle inner => exact ih inner operandMember
        | literal value => exact IsClosed.of_forall (literals value operandMember).2.noDelimiter
        | direction value => exact IsClosed.of_forall value.hasNoDelimiter_name
      have name := depthAfter_of_forall (fun c member => (operation.not_mem_name c member).1) 0
      rw [toList_columnName_expression other, IsClosed, depthAfter_append, name]
      exact depthAfter_operandText closed
  | @column subplan origin plain ih =>
      rw [toList_columnName_column]
      refine (IsClosed.of_forall fun c member => (subplan.not_mem_text c member).1).append ?_
      have slashes : IsClosed ['/', '/'] := IsClosed.of_forall (by simp [isDelimiter])
      exact slashes.append ih

/-- A plain handle's column name has a parenthesis or two slashes, so it is not a literal's. -/
theorem hasMark (plain : handle.IsPlain isQuoted) :
    '(' ∈ handle.columnName.toList ∨ ['/', '/'] <:+: handle.columnName.toList := by
  cases plain with
  | @field entity name =>
      rw [toList_columnName_field]
      exact .inr ⟨entity.toList, name.toList, by simp⟩
  | @expression operation operands other =>
      rw [toList_columnName_expression other]
      exact .inl (by simp)
  | @column subplan origin =>
      rw [toList_columnName_column]
      exact .inr ⟨subplan.text.toList, origin.columnName.toList, by simp⟩

theorem columnName_ne_content (plain : handle.IsPlain isQuoted) {literal : Literal}
    (literalPlain : IsPlainLiteral isQuoted literal) : handle.columnName ≠ literal.content := by
  intro same
  rcases plain.hasMark with parenthesis | slashes
  · rw [same] at parenthesis
    cases literalPlain.noDelimiter _ parenthesis
  · exact literalPlain.noSlashes (same ▸ slashes)

theorem columnName_ne_name (plain : handle.IsPlain isQuoted) (direction : Direction) :
    handle.columnName ≠ direction.name := by
  intro same
  have mark := plain.hasMark
  rw [same] at mark
  cases direction <;> revert mark <;> decide

theorem columnName_ne_nil (plain : handle.IsPlain isQuoted) : handle.columnName.toList ≠ [] := by
  intro empty
  have mark := plain.hasMark
  rw [empty] at mark
  revert mark
  decide

/-! ## Telling plain handles apart -/

theorem field_ne_expression {entity name : String} (entityPlain : IsPlainEntity entity)
    (namePlain : HasNoDelimiter name) {operation : Operation} (noPick : operation ≠ .getOne)
    (operands : List Operand) :
    columnName (.field entity name) ≠ columnName (.expression operation operands) := by
  intro same
  have text := congrArg String.toList same
  rw [toList_columnName_field, toList_columnName_expression noPick] at text
  have member : '(' ∈ entity.toList ++ '/' :: '/' :: name.toList := by simp [text]
  simp only [List.mem_append, List.mem_cons, Char.reduceEq, false_or] at member
  rcases member with inEntity | inName
  · cases entityPlain.noDelimiter _ inEntity
  · cases namePlain _ inName

theorem field_ne_column {entity name : String} (entityPlain : IsPlainEntity entity)
    (subplan : SubplanId) (column : String) (origin : Handle) :
    columnName (.field entity name) ≠ columnName (.column subplan column origin) := by
  intro same
  have text := congrArg String.toList same
  rw [toList_columnName_field, toList_columnName_column] at text
  obtain ⟨entities, -, -⟩ := eq_of_append_cons_eq (· ≠ '/')
    (fun c member found => entityPlain.noSlash (found ▸ member))
    (fun c member => (subplan.not_mem_text c member).2) (by simp) (by simp) text
  exact entityPlain.noAlias subplan (String.toList_injective entities)

theorem expression_ne_column {operation : Operation} (noPick : operation ≠ .getOne)
    (operands : List Operand) (subplan : SubplanId) (column : String) (origin : Handle) :
    columnName (.expression operation operands) ≠ columnName (.column subplan column origin) := by
  intro same
  have text := congrArg String.toList same
  rw [toList_columnName_expression noPick, toList_columnName_column] at text
  obtain ⟨-, marks, -⟩ := eq_of_append_cons_eq (fun c => isDelimiter c = false ∧ c ≠ '/')
    operation.not_mem_name subplan.not_mem_text (by decide) (by decide) text
  cases marks

end Handle.IsPlain

def Operand.IsPlain (isQuoted : String → Bool) (operation : Operation) : Operand → Prop
  | .handle inner => inner.IsPlain isQuoted
  | .literal value => operation ≠ .rowNumber ∧ IsPlainLiteral isQuoted value
  | .direction _ => operation = .rowNumber

namespace Operand.IsPlain

variable {isQuoted : String → Bool} {operation : Operation} {operand second : Operand}

theorem isClosed_name (plain : operand.IsPlain isQuoted operation) :
    IsClosed operand.name.toList ∧ operand.name.toList ≠ [] := by
  cases operand with
  | handle inner => exact ⟨plain.isClosed_columnName, plain.columnName_ne_nil⟩
  | literal literal =>
      refine ⟨IsClosed.of_forall plain.2.noDelimiter, ?_⟩
      intro empty
      exact plain.2.nonempty (String.toList_injective empty)
  | direction direction =>
      refine ⟨IsClosed.of_forall direction.hasNoDelimiter_name, ?_⟩
      cases direction <;> decide

/-- Plain operands of one operation are told apart by their names if handles among them are. -/
theorem eq_of_name_eq (plain : operand.IsPlain isQuoted operation)
    (secondPlain : second.IsPlain isQuoted operation)
    (handles : ∀ inner, operand = .handle inner → ∀ other : Handle, other.IsPlain isQuoted →
      inner.columnName = other.columnName → inner = other)
    (same : operand.name = second.name) : operand = second := by
  cases operand with
  | handle inner =>
      cases second with
      | handle other => rw [handles inner rfl other secondPlain same]
      | literal literal => exact absurd same (plain.columnName_ne_content secondPlain.2)
      | direction direction => exact absurd same (plain.columnName_ne_name direction)
  | literal literal =>
      cases second with
      | handle other => exact absurd same.symm (secondPlain.columnName_ne_content plain.2)
      | literal other =>
          have contents : literal.content = other.content := same
          have ways := plain.2.oneWay
          rw [contents, ← secondPlain.2.oneWay] at ways
          rw [Literal.eq_of_content_eq contents ways]
      | direction direction => exact absurd secondPlain plain.1
  | direction direction =>
      cases second with
      | handle other => exact absurd same.symm (secondPlain.columnName_ne_name direction)
      | literal literal => exact absurd plain secondPlain.1
      | direction other =>
          have names : direction.name = other.name := same
          cases direction <;> cases other <;> first | rfl | (revert names; decide)

end Operand.IsPlain

/-- Plain operands of one operation are told from their text. -/
theorem Operand.eq_of_operandText_eq {isQuoted : String → Bool} {operation : Operation}
    {operands others : List Operand}
    (plain : ∀ operand ∈ operands, operand.IsPlain isQuoted operation)
    (otherPlain : ∀ operand ∈ others, operand.IsPlain isQuoted operation)
    (handles : ∀ inner, .handle inner ∈ operands → ∀ other : Handle, other.IsPlain isQuoted →
      inner.columnName = other.columnName → inner = other)
    (same : operandText (operands.map fun operand => operand.name.toList) =
      operandText (others.map fun operand => operand.name.toList)) : operands = others := by
  have readable {items : List Operand}
      (itemsPlain : ∀ operand ∈ items, operand.IsPlain isQuoted operation) :
      ∀ name ∈ items.map (fun operand => operand.name.toList), IsClosed name ∧ name ≠ [] := by
    intro name member
    obtain ⟨operand, operandMember, rfl⟩ := List.mem_map.mp member
    exact (itemsPlain operand operandMember).isClosed_name
  have names := SemanticQuery.eq_of_operandText_eq (readable plain) (readable otherPlain) same
  clear same
  induction operands generalizing others with
  | nil =>
      cases others with
      | nil => rfl
      | cons other rest => cases names
  | cons operand rest ih =>
      cases others with
      | nil => cases names
      | cons other more =>
          rw [List.map_cons, List.map_cons, List.cons.injEq] at names
          have heads : operand = other := by
            refine Operand.IsPlain.eq_of_name_eq (plain operand List.mem_cons_self)
              (otherPlain other List.mem_cons_self) ?_ (String.toList_injective names.1)
            rintro inner rfl
            exact handles inner List.mem_cons_self
          have tails : rest = more :=
            ih (fun item member => plain item (List.mem_cons_of_mem _ member))
              (fun item member => otherPlain item (List.mem_cons_of_mem _ member))
              (fun inner member => handles inner (List.mem_cons_of_mem _ member)) names.2
          rw [heads, tails]

namespace Handle.IsPlain

variable {isQuoted : String → Bool} {handle second : Handle}

theorem operand_isPlain {operation : Operation} {operands : List Operand}
    (plain : IsPlain isQuoted (.expression operation operands)) :
    ∀ operand ∈ operands, operand.IsPlain isQuoted operation := by
  cases plain with
  | expression _ handles literals directions =>
      intro operand member
      cases operand with
      | handle inner => exact handles inner member
      | literal literal => exact literals literal member
      | direction direction => exact directions direction member

/-- Plain handles are told apart by their column names. -/
theorem eq_of_columnName_eq (plain : handle.IsPlain isQuoted)
    (secondPlain : second.IsPlain isQuoted) (same : handle.columnName = second.columnName) :
    handle = second := by
  induction plain generalizing second with
  | @field entity name entityPlain namePlain =>
      cases secondPlain with
      | @field other otherName otherPlain _ =>
          have text := congrArg String.toList same
          rw [toList_columnName_field, toList_columnName_field] at text
          obtain ⟨entities, -, names⟩ := eq_of_append_cons_eq (· ≠ '/')
            (fun c member found => entityPlain.noSlash (found ▸ member))
            (fun c member found => otherPlain.noSlash (found ▸ member)) (by simp) (by simp) text
          rw [List.cons.injEq] at names
          rw [String.toList_injective entities, String.toList_injective names.2]
      | expression noPick => exact absurd same (field_ne_expression entityPlain namePlain noPick _)
      | column => exact absurd same (field_ne_column entityPlain _ _ _)
  | @expression operation operands noPick handles literals directions ih =>
      have whole := IsPlain.expression noPick handles literals directions
      cases secondPlain with
      | field otherPlain namePlain =>
          exact absurd same.symm (field_ne_expression otherPlain namePlain noPick _)
      | @expression other others otherNoPick otherHandles otherLiterals otherDirections =>
          have otherWhole :=
            IsPlain.expression otherNoPick otherHandles otherLiterals otherDirections
          have text := congrArg String.toList same
          rw [toList_columnName_expression noPick, toList_columnName_expression otherNoPick] at text
          obtain ⟨names, -, texts⟩ :=
            eq_of_append_cons_eq (fun c => isDelimiter c = false ∧ c ≠ '/')
              operation.not_mem_name other.not_mem_name (by decide) (by decide) text
          have operations : operation = other := by
            have found := operation.ofName?_name
            rw [String.toList_injective names, Operation.ofName?_name] at found
            exact (Option.some.inj found).symm
          subst operations
          rw [Operand.eq_of_operandText_eq whole.operand_isPlain otherWhole.operand_isPlain
            (fun inner member other otherPlain => ih inner member otherPlain) texts]
      | column => exact absurd same (expression_ne_column noPick _ _ _ _)
  | @column subplan origin plain ih =>
      cases secondPlain with
      | field otherPlain => exact absurd same.symm (field_ne_column otherPlain _ _ _)
      | expression otherNoPick => exact absurd same.symm (expression_ne_column otherNoPick _ _ _ _)
      | @column other otherOrigin otherPlain =>
          have text := congrArg String.toList same
          rw [toList_columnName_column, toList_columnName_column] at text
          obtain ⟨aliases, -, names⟩ := eq_of_append_cons_eq (· ≠ '/')
            (fun c member => (subplan.not_mem_text c member).2)
            (fun c member => (other.not_mem_text c member).2) (by simp) (by simp) text
          rw [List.cons.injEq] at names
          have subplans := SubplanId.text_injective (String.toList_injective aliases)
          have origins := ih otherPlain (String.toList_injective names.2)
          rw [subplans, origins]

end Handle.IsPlain

end SemanticQuery
