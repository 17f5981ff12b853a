import Mathlib.Data.List.Basic

/-!
# Texts of operands

The operands of an expression stand between commas in parentheses.  A closed text is one in which an
operand cannot end early, so closed operands that are not empty can be told from the text of them
all.
-/

namespace SemanticQuery

/-! ## Closed texts -/

def isDelimiter (c : Char) : Bool :=
  c = '(' || c = ')' || c = ','

/-- The depth of nesting after a character, unless the operand that it stands in has ended. -/
def nextDepth (depth : Nat) (c : Char) : Option Nat :=
  if c = '(' then some (depth + 1)
  else if depth = 0 ∧ isDelimiter c then none
  else if c = ')' then some (depth - 1)
  else some depth

def depthAfter (depth : Nat) (text : List Char) : Option Nat :=
  text.foldlM nextDepth depth

/-- A text that can stand as an operand: its parentheses match, and it has no comma outside them. -/
def IsClosed (text : List Char) : Prop :=
  depthAfter 0 text = some 0

theorem depthAfter_append (depth : Nat) (first second : List Char) :
    depthAfter depth (first ++ second) =
      (depthAfter depth first).bind fun reached => depthAfter reached second :=
  List.foldlM_append

theorem depthAfter_cons (depth : Nat) (c : Char) (rest : List Char) :
    depthAfter depth (c :: rest) =
      (nextDepth depth c).bind fun reached => depthAfter reached rest :=
  List.foldlM_cons

theorem nextDepth_of_not_isDelimiter {c : Char} (plain : isDelimiter c = false) (depth : Nat) :
    nextDepth depth c = some depth := by
  have other : c ≠ '(' ∧ c ≠ ')' := by
    simp only [isDelimiter, Bool.or_eq_false_iff, decide_eq_false_iff_not] at plain
    exact plain.1
  simp [nextDepth, plain, other]

theorem depthAfter_of_forall {text : List Char} (plain : ∀ c ∈ text, isDelimiter c = false)
    (depth : Nat) : depthAfter depth text = some depth := by
  induction text with
  | nil => rfl
  | cons c rest ih =>
      rw [depthAfter_cons, nextDepth_of_not_isDelimiter (plain c List.mem_cons_self)]
      exact ih fun other member => plain other (List.mem_cons_of_mem c member)

theorem nextDepth_add {depth reached : Nat} {c : Char} (next : nextDepth depth c = some reached)
    (more : Nat) : nextDepth (depth + more) c = some (reached + more) := by
  unfold nextDepth at next ⊢
  split at next
  · rename_i opening
    cases next
    rw [if_pos opening, Nat.add_right_comm]
  · rename_i noOpening
    split at next
    · cases next
    · rename_i inside
      rw [if_neg noOpening, if_neg (fun ended => inside ⟨by omega, ended.2⟩)]
      split at next
      · rename_i closing
        have deep : depth ≠ 0 := fun zero => inside ⟨zero, by simp [isDelimiter, closing]⟩
        cases next
        rw [if_pos closing]
        congr 1
        omega
      · rename_i noClosing
        cases next
        rw [if_neg noClosing]

/-- Within more parentheses a text has the same shape. -/
theorem depthAfter_add {depth reached : Nat} {text : List Char}
    (after : depthAfter depth text = some reached) (more : Nat) :
    depthAfter (depth + more) text = some (reached + more) := by
  induction text generalizing depth with
  | nil =>
      cases after
      rfl
  | cons c rest ih =>
      rw [depthAfter_cons, Option.bind_eq_some_iff] at after
      obtain ⟨middle, next, later⟩ := after
      rw [depthAfter_cons, nextDepth_add next more]
      exact ih later

namespace IsClosed

variable {first second : List Char}

theorem of_forall {text : List Char} (plain : ∀ c ∈ text, isDelimiter c = false) : IsClosed text :=
  depthAfter_of_forall plain 0

theorem append (firstClosed : IsClosed first) (secondClosed : IsClosed second) :
    IsClosed (first ++ second) := by
  rw [IsClosed, depthAfter_append, firstClosed]
  exact secondClosed

/-- A closed text ends where a comma or a closing parenthesis follows it. -/
theorem not_append_cons (closed : IsClosed first) {c : Char} (ends : c = ',' ∨ c = ')')
    (rest : List Char) : ¬ IsClosed (first ++ c :: rest) := by
  have ended : nextDepth 0 c = none := by
    rcases ends with rfl | rfl
    · rfl
    · rfl
  rw [IsClosed, depthAfter_append, closed, Option.bind_some, depthAfter_cons, ended]
  exact nofun

theorem eq_of_append_eq (firstClosed : IsClosed first) (secondClosed : IsClosed second)
    {one two : Char} {rest others : List Char} (firstEnds : one = ',' ∨ one = ')')
    (secondEnds : two = ',' ∨ two = ')') (same : first ++ one :: rest = second ++ two :: others) :
    first = second := by
  rcases List.append_eq_append_iff.mp same with ⟨between, rfl, tails⟩ | ⟨between, rfl, tails⟩
  · cases between with
    | nil => simp
    | cons c more =>
        cases tails
        exact absurd secondClosed (firstClosed.not_append_cons firstEnds more)
  · cases between with
    | nil => simp
    | cons c more =>
        cases tails
        exact absurd firstClosed (secondClosed.not_append_cons secondEnds more)

end IsClosed

/-! ## Lists of operands -/

/-- Operands between commas, and the parenthesis after them. -/
def operandText (names : List (List Char)) : List Char :=
  List.intercalate [','] names ++ [')']

theorem operandText_nil : operandText [] = [')'] := rfl

/-- After the first operand stands a comma or the closing parenthesis. -/
theorem operandText_cons (name : List Char) (rest : List (List Char)) :
    operandText (name :: rest) =
      name ++ if rest = [] then [')'] else ',' :: operandText rest := by
  cases rest with
  | nil => simp [operandText]
  | cons next rest => simp [operandText, List.intercalate_cons_cons]

theorem exists_operandText_cons (name : List Char) (rest : List (List Char)) :
    ∃ c more, operandText (name :: rest) = name ++ c :: more ∧ (c = ',' ∨ c = ')') := by
  rw [operandText_cons]
  split
  · exact ⟨')', [], rfl, .inr rfl⟩
  · exact ⟨',', operandText rest, rfl, .inl rfl⟩

theorem depthAfter_operandText {names : List (List Char)} (closed : ∀ name ∈ names, IsClosed name) :
    depthAfter 1 (operandText names) = some 0 := by
  induction names with
  | nil => rfl
  | cons name rest ih =>
      have inside : depthAfter 1 name = some 1 := depthAfter_add (closed name List.mem_cons_self) 1
      rw [operandText_cons, depthAfter_append, inside, Option.bind_some]
      split
      · rfl
      · exact ih fun other member => closed other (List.mem_cons_of_mem name member)

/-- Operands that are closed and not empty can be told from their text. -/
theorem eq_of_operandText_eq {first second : List (List Char)}
    (firstOk : ∀ name ∈ first, IsClosed name ∧ name ≠ [])
    (secondOk : ∀ name ∈ second, IsClosed name ∧ name ≠ [])
    (same : operandText first = operandText second) : first = second := by
  have lacksFirst {name : List Char} {rest : List (List Char)} (closed : IsClosed name)
      (nonempty : name ≠ []) : operandText (name :: rest) ≠ operandText [] := by
    intro equal
    obtain ⟨c, more, text, ends⟩ := exists_operandText_cons name rest
    rw [text, operandText_nil] at equal
    have empty : IsClosed [] := rfl
    exact nonempty (closed.eq_of_append_eq empty ends (.inr rfl) equal)
  induction first generalizing second with
  | nil =>
      cases second with
      | nil => rfl
      | cons name rest =>
          obtain ⟨closed, nonempty⟩ := secondOk name List.mem_cons_self
          exact absurd same.symm (lacksFirst closed nonempty)
  | cons name rest ih =>
      obtain ⟨closed, nonempty⟩ := firstOk name List.mem_cons_self
      cases second with
      | nil => exact absurd same (lacksFirst closed nonempty)
      | cons other others =>
          obtain ⟨otherClosed, -⟩ := secondOk other List.mem_cons_self
          have heads : name = other := by
            obtain ⟨c, more, text, ends⟩ := exists_operandText_cons name rest
            obtain ⟨d, further, otherText, otherEnds⟩ := exists_operandText_cons other others
            rw [text, otherText] at same
            exact closed.eq_of_append_eq otherClosed ends otherEnds same
          subst heads
          rw [operandText_cons, operandText_cons, List.append_cancel_left_eq] at same
          have tails : rest = others := by
            by_cases last : rest = []
            · by_cases otherLast : others = []
              · rw [last, otherLast]
              · simp [last, otherLast] at same
            · by_cases otherLast : others = []
              · simp [last, otherLast] at same
              · rw [if_neg last, if_neg otherLast, List.cons.injEq] at same
                exact ih (fun item member => firstOk item (List.mem_cons_of_mem _ member))
                  (fun item member => secondOk item (List.mem_cons_of_mem _ member)) same.2
          rw [tails]

end SemanticQuery
