import SemanticQuery.Proofs.Step.Scan
import SemanticQuery.Step.Parse

/-!
# Canonical step texts

A step that was read is read again from its canonical text.  Each of its arguments is written as
one token that denotes it, and the checks it has passed depend on the step alone.
-/

namespace SemanticQuery

/-! ## References and arguments -/

/-- The characters of a step's name are word characters. -/
theorem isWordChar_of_isNameChar {c : Char} (nameChar : isNameChar c = true) :
    Token.isWordChar c = true := by
  have small : c.toNat < 128 := by
    have kinds : (((c.isUpper || c.isLower) || c.isDigit) || decide (c = '_')) = true := nameChar
    simp only [Bool.or_eq_true, decide_eq_true_eq] at kinds
    rcases kinds with ((upper | lower) | digit) | rfl
    · have last : c.val ≤ 'Z'.val := (of_decide_eq_true upper).2
      exact Nat.lt_of_le_of_lt (UInt32.le_iff_toNat_le.mp last) (by decide)
    · have last : c.val ≤ 'z'.val := of_decide_eq_true (Bool.and_eq_true_iff.mp lower).2
      exact Nat.lt_of_le_of_lt (UInt32.le_iff_toNat_le.mp last) (by decide)
    · have last : c.val ≤ '9'.val := of_decide_eq_true (Bool.and_eq_true_iff.mp digit).2
      exact Nat.lt_of_le_of_lt (UInt32.le_iff_toNat_le.mp last) (by decide)
    · decide
  have ascii : ∀ n < 128, isNameChar (Char.ofNat n) = true →
      Token.isWordChar (Char.ofNat n) = true := by decide +kernel
  have here := ascii c.toNat small
  rw [Char.ofNat_toNat] at here
  exact here nameChar

namespace StepRef

theorem toList_text (reference : StepRef) :
    reference.text.toList = '|' :: (reference.name.toList ++ ['|']) := by
  simp [text]

/-- A reference is read back from its text. -/
@[simp] theorem ofText?_text (reference : StepRef) : ofText? reference.text = some reference := by
  have inner : innerText? reference.text = some reference.name := by
    simp [innerText?, toList_text]
  simp [ofText?, inner, reference.isName]

theorem text_injective {first second : StepRef} (same : first.text = second.text) :
    first = second := by
  have found := ofText?_text first
  rw [same, ofText?_text] at found
  exact (Option.some.inj found).symm

/-- No blank stands at either end of a reference's text. -/
@[simp] theorem trim_text (reference : StepRef) : Text.trim reference.text = reference.text := by
  have bar : Text.isBlank '|' = false := by decide
  apply String.toList_injective
  simp [Text.trim, Text.dropBlanks, toList_text, bar]

theorem text_isScanned (reference : StepRef) : (Token.word reference.text).IsScanned := by
  have named := reference.isName
  simp only [isStepName, Bool.and_eq_true, List.all_eq_true] at named
  rw [Token.IsScanned, toList_text]
  refine ⟨by simp, ?_⟩
  intro c member
  simp only [List.mem_cons, List.mem_append, List.not_mem_nil, or_false] at member
  rcases member with rfl | nameChar | rfl
  · decide
  · exact isWordChar_of_isNameChar (named.2 c nameChar)
  · decide

end StepRef

namespace Argument

def token : Argument → Token
  | .reference target => .word target.text
  | .literal (.quoted text) => .quoted text
  | .literal (.bare text) => .word text

/-- What holds of an argument that was read: a bare literal is a word, and no reference. -/
def IsWritten : Argument → Prop
  | .literal (.bare text) => (Token.word text).IsScanned ∧ StepRef.ofText? text = none
  | .reference _ | .literal (.quoted _) => True

theorem isWritten_of_ofToken? {token : Token} (scanned : token.IsScanned) {a : Argument}
    (denotes : ofToken? token = some a) : a.IsWritten := by
  cases token with
  | opening => cases denotes
  | closing => cases denotes
  | quoted text =>
      cases denotes
      trivial
  | word text =>
      simp only [ofToken?] at denotes
      cases found : StepRef.ofText? text with
      | some target =>
          rw [found] at denotes
          cases denotes
          trivial
      | none =>
          rw [found] at denotes
          cases denotes
          exact ⟨scanned, found⟩

/-- The token of an argument that was read denotes it. -/
theorem ofToken?_token {a : Argument} (written : a.IsWritten) : ofToken? a.token = some a := by
  cases a with
  | reference target => simp [token, ofToken?]
  | literal value =>
      cases value with
      | quoted text => rfl
      | bare text => simp [token, ofToken?, written.2]

theorem isArgument_token (a : Argument) : a.token.isArgument = true := by
  cases a with
  | reference target => rfl
  | literal value => cases value <;> rfl

/-- The text of an argument that was read is scanned as its token. -/
theorem reads_text {a : Argument} (written : a.IsWritten) :
    Token.Scan.Reads a.text.toList [a.token] := by
  cases a with
  | reference target =>
      obtain ⟨nonempty, wordChars⟩ := target.text_isScanned
      simpa [text, token] using Token.Scan.reads_word nonempty wordChars
  | literal value =>
      cases value with
      | quoted content =>
          simpa [text, token, Literal.text] using Token.Scan.reads_quoted content.toList
      | bare content =>
          obtain ⟨⟨nonempty, wordChars⟩, -⟩ := written
          simpa [text, token, Literal.text] using Token.Scan.reads_word nonempty wordChars

end Argument

/-! ## Operations and steps -/

namespace Operation

/-- Every operation is found by its name. -/
@[simp] theorem ofName?_name (operation : Operation) : ofName? operation.name = some operation := by
  cases operation <;> rfl

theorem name_isScanned (operation : Operation) : (Token.word operation.name).IsScanned := by
  cases operation <;> exact ⟨by decide, List.all_eq_true.mp (by decide)⟩

end Operation

namespace Step

/-- What holds of a step that was read: its arguments were, and it passed the checks. -/
structure IsCanonical (step : Step) : Prop where
  written : ∀ a ∈ step.arguments, a.IsWritten
  arity : step.checkArity = .ok ()
  shape : step.checkShape = .ok ()

/-- A step that passes the checks is what its operation's name and its arguments' tokens give. -/
theorem parse_of_splitStep {reference : StepRef} {text name : String} {tokens : List Token}
    (split : Token.splitStep text = .ok (name, tokens)) {operation : Operation}
    (named : Operation.ofName? name = some operation)
    (arity : checkArity ⟨reference, operation, tokens.filterMap Argument.ofToken?⟩ = .ok ())
    (shape : checkShape ⟨reference, operation, tokens.filterMap Argument.ofToken?⟩ = .ok ()) :
    parse reference text = .ok ⟨reference, operation, tokens.filterMap Argument.ofToken?⟩ := by
  simp [parse, split, named, arity, shape, bind, Except.bind]

/-- Reading a step succeeds only through each of its parts. -/
theorem splitStep_of_parse {reference : StepRef} {text : String} {step : Step}
    (parsed : parse reference text = .ok step) :
    ∃ name tokens operation, Token.splitStep text = .ok (name, tokens) ∧
      Operation.ofName? name = some operation ∧
      step = ⟨reference, operation, tokens.filterMap Argument.ofToken?⟩ ∧
      step.checkArity = .ok () ∧ step.checkShape = .ok () := by
  unfold parse at parsed
  split at parsed
  · cases parsed
  · rename_i name tokens split
    split at parsed
    · cases parsed
    · rename_i operation named
      simp only [bind, Except.bind] at parsed
      split at parsed
      · cases parsed
      · rename_i arity
        split at parsed
        · cases parsed
        · rename_i shape
          cases parsed
          exact ⟨name, tokens, operation, split, named, rfl, arity, shape⟩

theorem reference_of_parse {reference : StepRef} {text : String} {step : Step}
    (parsed : parse reference text = .ok step) : step.reference = reference := by
  obtain ⟨name, tokens, operation, -, -, rfl, -⟩ := splitStep_of_parse parsed
  rfl

theorem isCanonical_of_parse {reference : StepRef} {text : String} {step : Step}
    (parsed : parse reference text = .ok step) : step.IsCanonical := by
  obtain ⟨name, tokens, operation, split, -, rfl, arity, shape⟩ := splitStep_of_parse parsed
  refine ⟨?_, arity, shape⟩
  intro a member
  obtain ⟨token, tokenMember, denotes⟩ := List.mem_filterMap.mp member
  have scanned := Token.tokenize_scanned (Token.tokenize_of_splitStep split).1
  exact Argument.isWritten_of_ofToken? (scanned token (by simp [tokenMember])) denotes

def argumentChars (arguments : List Argument) : List Char :=
  arguments.flatMap fun a => ' ' :: a.text.toList

theorem endsWord_argumentChars (arguments : List Argument) :
    Token.Scan.EndsWord (argumentChars arguments ++ [')']) := by
  cases arguments with
  | nil =>
      rintro c ⟨⟩
      decide
  | cons a rest =>
      rintro c ⟨⟩
      decide

theorem reads_argumentChars {arguments : List Argument} (written : ∀ a ∈ arguments, a.IsWritten) :
    Token.Scan.Reads (argumentChars arguments ++ [')'])
      (arguments.map Argument.token ++ [.closing]) := by
  induction arguments with
  | nil =>
      have closes (position : Nat) :
          Token.Scan.between.next position ')' = ([.closing], .between) := rfl
      simpa [argumentChars] using Token.Scan.Reads.cons closes .nil
  | cons a rest ih =>
      have first := Argument.reads_text (written a List.mem_cons_self)
      have others := ih fun b member => written b (List.mem_cons_of_mem a member)
      have joined := first.append others (endsWord_argumentChars rest)
      have skips (position : Nat) : Token.Scan.between.next position ' ' = ([], .between) := rfl
      simpa [argumentChars] using Token.Scan.Reads.cons skips joined

theorem toList_text (step : Step) :
    step.text.toList =
      '(' :: (step.operation.name.toList ++ (argumentChars step.arguments ++ [')'])) := by
  simp [text, argumentChars, String.toList_join, List.flatMap_map]

/-- The canonical text is scanned as one flat list of the operation's name and the arguments. -/
theorem reads_text {step : Step} (written : ∀ a ∈ step.arguments, a.IsWritten) :
    Token.Scan.Reads step.text.toList
      (.opening :: .word step.operation.name ::
        (step.arguments.map Argument.token ++ [.closing])) := by
  obtain ⟨nonempty, wordChars⟩ := step.operation.name_isScanned
  have named := Token.Scan.reads_word nonempty wordChars
  have inner := named.append (reads_argumentChars written) (endsWord_argumentChars step.arguments)
  rw [String.ofList_toList] at inner
  have opens (position : Nat) :
      Token.Scan.between.next position '(' = ([.opening], .between) := rfl
  rw [toList_text]
  exact .cons opens inner

theorem filterMap_ofToken?_token {arguments : List Argument}
    (written : ∀ a ∈ arguments, a.IsWritten) :
    (arguments.map Argument.token).filterMap Argument.ofToken? = arguments := by
  induction arguments with
  | nil => rfl
  | cons a rest ih =>
      have first := Argument.ofToken?_token (written a List.mem_cons_self)
      have others := ih fun b member => written b (List.mem_cons_of_mem a member)
      rw [List.map_cons, List.filterMap_cons_some first, others]

/-- A step that was read is read again from its canonical text. -/
theorem parse_text {step : Step} (canonical : step.IsCanonical) :
    parse step.reference step.text = .ok step := by
  have tokenized := Token.tokenize_of_reads (reads_text canonical.written)
  have argumentsOnly : ∀ token ∈ step.arguments.map Argument.token, token.isArgument = true := by
    intro token member
    obtain ⟨a, -, rfl⟩ := List.mem_map.mp member
    exact a.isArgument_token
  have split := Token.splitStep_of_tokenize tokenized argumentsOnly
  have denoted := filterMap_ofToken?_token canonical.written
  have arity : checkArity ⟨step.reference, step.operation,
      (step.arguments.map Argument.token).filterMap Argument.ofToken?⟩ = .ok () := by
    rw [denoted]
    exact canonical.arity
  have shape : checkShape ⟨step.reference, step.operation,
      (step.arguments.map Argument.token).filterMap Argument.ofToken?⟩ = .ok () := by
    rw [denoted]
    exact canonical.shape
  rw [parse_of_splitStep split step.operation.ofName?_name arity shape, denoted]

end Step

end SemanticQuery
