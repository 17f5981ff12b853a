import SemanticQuery.Proofs.Sql.Aggregate
import SemanticQuery.Proofs.Sql.ValueText

/-!
# The shapes of written expressions

The word at the beginning of a written expression and the character behind this word give its shape.
No keyword that can stand before an expression begins one.
-/

namespace SemanticQuery.Sql

variable {dialect : Dialect} {position : Nat} {rest others : List Fragment}

/-! ## Expressions that are written -/

def functionNames : List String :=
  aggregateNames ++ ["SQRT", "ABS", "ROUND", "COALESCE", "julianday", "strftime", "to_char",
    "date_part", "percentile_disc"]

def castTypes : List String :=
  ["REAL", "NUMERIC", "DATE", "TEXT", "INTEGER"]

/-- Expressions whose connectives have at least two operands and whose functions and types are
those of compiled expressions. -/
inductive Expr.IsWritable : Expr → Prop
  | column (table name : String) : IsWritable (.column table name)
  | value (content : Value) : IsWritable (.value content)
  | constant (text : String) : IsWritable (.constant text)
  | binary (operator : Operator) {left right : Expr} :
      IsWritable left → IsWritable right → IsWritable (.binary operator left right)
  | logical (connective : Connective) {operands : List Expr} :
      2 ≤ operands.length → (∀ operand ∈ operands, IsWritable operand) →
      IsWritable (.logical connective operands)
  | not {operand : Expr} : IsWritable operand → IsWritable (.not operand)
  | function {name : String} (distinct : Bool) {arguments : List Expr} :
      name ∈ functionNames → (∀ argument ∈ arguments, IsWritable argument) →
      IsWritable (.function name distinct arguments)
  | cast {operand : Expr} {type : String} :
      type ∈ castTypes → IsWritable operand → IsWritable (.cast operand type)
  | withinGroup {name : String} {arguments : List Expr} {orderBy : Expr} :
      name ∈ functionNames → (∀ argument ∈ arguments, IsWritable argument) → IsWritable orderBy →
      IsWritable (.withinGroup name arguments orderBy)
  | rowNumber {orderBy : List (OrderTerm Expr)} :
      (∀ term ∈ orderBy, IsWritable term.expr) → IsWritable (.rowNumber orderBy)

/-! ## Shapes -/

/-- What the beginning of a text tells about the expression that stands there. -/
inductive Shape where
  | name
  | constant
  | bound
  | group
  | word (chars : List Char)
  | call (name : List Char)
  /-- No expression stands there. -/
  | none
  deriving DecidableEq

/-- The shape that a word and the character behind it give. -/
def shapeOf (opening : List Char × Option Char) : Shape :=
  if opening.1 = [] then
    match opening.2 with
    | some '"' => .name
    | some '\x27' => .constant
    | some '(' => .group
    | some '?' | some '$' => .bound
    | _ => .none
  else if opening.2 = some '(' then .call opening.1
  else .word opening.1

def Expr.shape : Expr → Shape
  | .column .. => .name
  | .value content =>
      match valueFragment content with
      | .text word => .word word.toList
      | _ => .bound
  | .constant _ => .constant
  | .binary .. | .logical .. | .not _ => .group
  | .function name .. | .withinGroup name .. => .call name.toList
  | .cast .. => .call "CAST".toList
  | .rowNumber _ => .call "ROW_NUMBER".toList

theorem isBare_of_mem_functionNames {name : String} (listed : name ∈ functionNames) :
    IsBare name.toList ∧ name.toList ≠ [] := by
  have all : ∀ name ∈ functionNames, IsBare name.toList ∧ name.toList ≠ [] := by decide +kernel
  exact all name listed

/-- A mark at the beginning of a text gives the shape. -/
theorem shapeOf_opening_of_head? (mark : Char) {chars : List Char} (first : chars.head? = some mark)
    (noWord : isBareChar mark = false) : shapeOf (opening chars) = shapeOf ([], some mark) := by
  rw [opening_of_head? (by rw [first]; rintro _ ⟨⟩; exact noWord), first]

/-- A name before a parenthesis is the name of a call. -/
theorem shapeOf_opening_call (name : List Char) (bare : IsBare name) (nonempty : name ≠ [])
    (chars : List Char) : shapeOf (opening (name ++ '(' :: chars)) = .call name := by
  rw [opening_append bare (by rintro _ ⟨⟩; rfl)]
  simp [shapeOf, nonempty]

/-- A word that a call does not follow stands alone. -/
theorem shapeOf_opening_word {word tail : List Char} (bare : IsBare word) (nonempty : word ≠ [])
    (ends : ∀ c ∈ tail.head?, isEndChar c = true) :
    shapeOf (opening (word ++ tail)) = .word word := by
  rw [opening_append bare fun c first => isBareChar_of_isEndChar (ends c first)]
  have noCall : tail.head? ≠ some '(' := fun first => absurd (ends '(' first) (by decide)
  simp [shapeOf, nonempty, noCall]

/-- No expression begins like what follows one. -/
theorem shapeOf_opening_end {chars : List Char} (ends : ∀ c ∈ chars.head?, isEndChar c = true) :
    shapeOf (opening chars) = .none := by
  rw [opening_of_head? fun c first => isBareChar_of_isEndChar (ends c first)]
  cases first : chars.head? with
  | none => rfl
  | some c =>
      have isEnd := ends c first
      simp only [isEndChar, Bool.or_eq_true, decide_eq_true_eq] at isEnd
      rcases isEnd with (rfl | rfl) | rfl <;> rfl

/-- The shape of an expression is read off its writing. -/
theorem Expr.shapeOf_opening {expr : Expr} (writable : expr.IsWritable) (ends : Ends dialect rest)
    (position : Nat) :
    shapeOf (opening (written dialect position (expr.fragments ++ rest))) = expr.shape := by
  cases writable with
  | column table name =>
      have first : (written dialect position
          ((Expr.column table name).fragments ++ rest)).head? = some '"' := by
        simp [Expr.fragments, quoteName, toList_doubled]
      rw [shapeOf_opening_of_head? _ first rfl]
      rfl
  | constant text =>
      have first : (written dialect position
          ((Expr.constant text).fragments ++ rest)).head? = some '\x27' := by
        simp [Expr.fragments, quoteConstant, toList_doubled]
      rw [shapeOf_opening_of_head? _ first rfl]
      rfl
  | value content =>
      cases fragment : valueFragment content with
      | text word =>
          have isWord := isValueWord_of_valueFragment fragment
          simp only [Expr.fragments, Expr.shape, fragment, List.cons_append, List.nil_append,
            written_text]
          exact shapeOf_opening_word isWord.bare isWord.ne_nil (ends.isEndChar position)
      | bound text =>
          simp only [Expr.fragments, Expr.shape, fragment, List.cons_append, List.nil_append,
            written_bound]
          cases dialect with
          | sqlite => exact shapeOf_opening_of_head? '?' (by simp [Dialect.placeholder]) rfl
          | postgres =>
              exact shapeOf_opening_of_head? '$' (by simp [Dialect.placeholder]) rfl
      | name text => cases content <;> cases fragment
      | constant text => cases content <;> cases fragment
  | binary operator | logical connective | not =>
      simp only [Expr.fragments, List.cons_append, List.nil_append, written_text, Expr.shape]
      exact shapeOf_opening_of_head? '(' (by simp) rfl
  | function distinct listed =>
      obtain ⟨bare, nonempty⟩ := isBare_of_mem_functionNames listed
      simp only [Expr.fragments, List.cons_append, List.nil_append, written_text,
        String.toList_append, List.append_assoc, Expr.shape]
      exact shapeOf_opening_call _ bare nonempty _
  | withinGroup listed =>
      obtain ⟨bare, nonempty⟩ := isBare_of_mem_functionNames listed
      simp only [Expr.fragments, List.cons_append, List.nil_append, written_text,
        String.toList_append, List.append_assoc, Expr.shape]
      exact shapeOf_opening_call _ bare nonempty _
  | cast =>
      simp only [Expr.fragments, List.cons_append, List.nil_append, written_text, Expr.shape]
      exact shapeOf_opening_call "CAST".toList (by decide) (by decide) _
  | rowNumber =>
      simp only [Expr.fragments, List.cons_append, List.nil_append, written_text, Expr.shape]
      exact shapeOf_opening_call "ROW_NUMBER".toList (by decide) (by decide) _

/-! ## What a shape tells -/

namespace Expr

variable {expr other : Expr}

theorem shape_value_cases (content : Value) :
    (∃ text, content = .text text ∧ (Expr.value content).shape = .bound) ∨
      ∃ word, valueFragment content = .text word ∧
        (Expr.value content).shape = .word word.toList := by
  cases content with
  | text text => exact .inl ⟨text, rfl, rfl⟩
  | null | boolean value | integer value | float value => exact .inr ⟨_, rfl, rfl⟩

theorem eq_column_of_shape (shape : expr.shape = .name) : ∃ table name, expr = .column table name := by
  cases expr with
  | column table name => exact ⟨table, name, rfl⟩
  | value content =>
      rcases shape_value_cases content with ⟨_, _, found⟩ | ⟨_, _, found⟩ <;> simp [found] at shape
  | _ => simp [Expr.shape] at shape

theorem eq_constant_of_shape (shape : expr.shape = .constant) : ∃ text, expr = .constant text := by
  cases expr with
  | constant text => exact ⟨text, rfl⟩
  | value content =>
      rcases shape_value_cases content with ⟨_, _, found⟩ | ⟨_, _, found⟩ <;> simp [found] at shape
  | _ => simp [Expr.shape] at shape

theorem eq_text_of_shape (shape : expr.shape = .bound) : ∃ text, expr = .value (.text text) := by
  cases expr with
  | value content =>
      rcases shape_value_cases content with ⟨text, rfl, -⟩ | ⟨_, _, found⟩
      · exact ⟨text, rfl⟩
      · simp [found] at shape
  | _ => simp [Expr.shape] at shape

theorem eq_value_of_shape {chars : List Char} (shape : expr.shape = .word chars) :
    ∃ content word, expr = .value content ∧ valueFragment content = .text word ∧
      word.toList = chars := by
  cases expr with
  | value content =>
      rcases shape_value_cases content with ⟨_, _, found⟩ | ⟨word, fragment, found⟩
      · simp [found] at shape
      · rw [found] at shape
        exact ⟨content, word, rfl, fragment, Shape.word.inj shape⟩
  | _ => simp [Expr.shape] at shape

theorem shape_ne_none (expr : Expr) : expr.shape ≠ .none := by
  cases expr with
  | value content =>
      rcases shape_value_cases content with ⟨_, _, found⟩ | ⟨_, _, found⟩ <;> simp [found]
  | _ => simp [Expr.shape]

/-- A word of letters that no value is written with is not the shape of an expression. -/
theorem shape_ne_keyword {keyword : String} (listed : keyword ∈ ["NOT", "DISTINCT"]) (expr : Expr) :
    expr.shape ≠ .word keyword.toList := by
  intro shape
  obtain ⟨content, word, rfl, fragment, sameChars⟩ := eq_value_of_shape shape
  obtain rfl : word = keyword := String.toList_inj.mp sameChars
  have unknown : ∀ keyword ∈ ["NOT", "DISTINCT"],
      HasNoDigit keyword.toList ∧ keyword.toList ∉ wordsOfValues := by decide
  exact not_isValueWord (unknown word listed).1 (unknown word listed).2
    (isValueWord_of_valueFragment fragment)

theorem shape_eq_of_alike (writable : expr.IsWritable) (otherWritable : other.IsWritable)
    (restEnds : Ends dialect rest) (othersEnd : Ends dialect others)
    (alike : Alike dialect position (expr.fragments ++ rest) (other.fragments ++ others)) :
    expr.shape = other.shape :=
  calc
    expr.shape = shapeOf (opening (written dialect position (expr.fragments ++ rest))) :=
      (shapeOf_opening writable restEnds position).symm
    _ = shapeOf (opening (written dialect position (other.fragments ++ others))) := by
      rw [alike.chars]
    _ = other.shape := shapeOf_opening otherWritable othersEnd position

/-- An expression begins where none could have ended. -/
theorem begins (writable : expr.IsWritable) (ends : Ends dialect rest) :
    Begins dialect (expr.fragments ++ rest) := by
  intro position
  by_contra absent
  have onlyEnds : ∀ c ∈ (written dialect position (expr.fragments ++ rest)).head?,
      isEndChar c = true := by
    intro c first
    by_contra other
    exact absent ⟨c, first, Bool.eq_false_iff.mpr other⟩
  have shape := shapeOf_opening writable ends position
  rw [shapeOf_opening_end onlyEnds] at shape
  exact expr.shape_ne_none shape.symm

/-- No expression begins with a keyword. -/
theorem written_ne_keyword (writable : expr.IsWritable) (ends : Ends dialect rest) (keyword : String)
    (listed : keyword ∈ ["NOT", "DISTINCT"]) (chars : List Char) :
    written dialect position (expr.fragments ++ rest) ≠ keyword.toList ++ ' ' :: chars := by
  intro same
  have isBare : ∀ keyword ∈ ["NOT", "DISTINCT"], IsBare keyword.toList ∧ keyword.toList ≠ [] := by
    decide
  have shape := shapeOf_opening writable ends position
  rw [same, shapeOf_opening_word (isBare keyword listed).1 (isBare keyword listed).2
    (by rintro _ ⟨⟩; rfl)] at shape
  exact expr.shape_ne_keyword listed shape.symm

end Expr

end SemanticQuery.Sql
