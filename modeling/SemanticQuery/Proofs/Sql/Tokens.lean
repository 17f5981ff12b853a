import SemanticQuery.Proofs.Sql.ValueText

/-!
# Tokens of SQL text

SQL text is read character by character.  A quote begins a name or a constant, which goes on to the
first mark that is not doubled.  Placeholders stand outside of quotes.  What is read from a quoted text
or a placeholder does not depend on the tokens before it, and a separator behind it ends it.
-/

namespace SemanticQuery.Sql

/-- What stands between quotes, and the placeholders outside of them. -/
inductive Token where
  | name (text : String)
  | constant (text : String)
  | placeholder (text : String)
  deriving DecidableEq

namespace Token

def name? : Token → Option String
  | .name text => some text
  | _ => none

def constant? : Token → Option String
  | .constant text => some text
  | _ => none

def placeholder? : Token → Option String
  | .placeholder text => some text
  | _ => none

end Token

inductive Quote where
  | name
  | constant

namespace Quote

def mark : Quote → Char
  | .name => '"'
  | .constant => '\x27'

def token : Quote → String → Token
  | .name, content => .name content
  | .constant, content => .constant content

end Quote

/-! ## Reading -/

inductive ReaderMode where
  | bare
  /-- Within a quote, after some of its content. -/
  | quoted (quote : Quote) (content : List Char)
  /-- Behind a mark in a quote.  The quote goes on if another mark follows, and else it has ended. -/
  | marked (quote : Quote) (content : List Char)
  | placeholder (chars : List Char)

/-- A reader of SQL text and the tokens that are behind it. -/
structure Reader where
  tokens : List Token
  mode : ReaderMode

/-- Where a character leads to that does not belong to what is before it. -/
def ReaderMode.enter (c : Char) : ReaderMode :=
  if c = '"' then .quoted .name []
  else if c = '\x27' then .quoted .constant []
  else if c = '?' || c = '$' then .placeholder [c]
  else .bare

namespace Reader

def start : Reader :=
  ⟨[], .bare⟩

def step : Reader → Char → Reader
  | ⟨tokens, .bare⟩, c => ⟨tokens, .enter c⟩
  | ⟨tokens, .quoted quote content⟩, c =>
      if c = quote.mark then ⟨tokens, .marked quote content⟩
      else ⟨tokens, .quoted quote (content ++ [c])⟩
  | ⟨tokens, .marked quote content⟩, c =>
      if c = quote.mark then ⟨tokens, .quoted quote (content ++ [c])⟩
      else ⟨tokens ++ [quote.token (String.ofList content)], .enter c⟩
  | ⟨tokens, .placeholder chars⟩, c =>
      if c.isDigit then ⟨tokens, .placeholder (chars ++ [c])⟩
      else ⟨tokens ++ [.placeholder (String.ofList chars)], .enter c⟩

def readAll (reader : Reader) (chars : List Char) : Reader :=
  chars.foldl step reader

/-- All tokens, if the text ends here; none if it ends inside a quote. -/
def tokens? : Reader → Option (List Token)
  | ⟨tokens, .bare⟩ => some tokens
  | ⟨_, .quoted ..⟩ => none
  | ⟨tokens, .marked quote content⟩ => some (tokens ++ [quote.token (String.ofList content)])
  | ⟨tokens, .placeholder chars⟩ => some (tokens ++ [.placeholder (String.ofList chars)])

end Reader

/-- The tokens of a SQL text, unless it ends inside a quote. -/
def readTokens? (sql : String) : Option (List Token) :=
  (Reader.start.readAll sql.toList).tokens?

/-! ## Plain text -/

def isTokenMark (c : Char) : Bool :=
  c ∈ ['"', '\x27', '?', '$']

/-- A text in which no token begins. -/
def IsUnmarked (text : String) : Prop :=
  ∀ c ∈ text.toList, isTokenMark c = false

instance (text : String) : Decidable (IsUnmarked text) :=
  decidable_of_iff (text.toList.all fun c => !isTokenMark c) (by simp [IsUnmarked])

/-- A text that no token goes on with. -/
def Separates (text : String) : Prop :=
  IsUnmarked text ∧ text.toList.head?.any (fun c => !c.isDigit) = true

instance (text : String) : Decidable (Separates text) :=
  inferInstanceAs (Decidable (_ ∧ _))

theorem IsUnmarked.append {first second : String} (one : IsUnmarked first) (two : IsUnmarked second) :
    IsUnmarked (first ++ second) := by
  intro c member
  rw [String.toList_append, List.mem_append] at member
  exact member.elim (one c) (two c)

theorem Separates.append {first second : String} (one : Separates first) (two : IsUnmarked second) :
    Separates (first ++ second) := by
  refine ⟨one.1.append two, ?_⟩
  obtain ⟨c, head, noDigit⟩ := Option.any_eq_true _ _ |>.mp one.2
  rw [String.toList_append, List.head?_append, head]
  exact noDigit

/-- No token begins in words and numbers. -/
theorem isUnmarked_of_isBare {text : String} (bare : IsBare text.toList) : IsUnmarked text := by
  intro c member
  refine decide_eq_false fun isMark => ?_
  have isBare := bare c member
  simp only [List.mem_cons, List.not_mem_nil, or_false] at isMark
  rcases isMark with rfl | rfl | rfl | rfl <;> cases isBare

theorem ReaderMode.enter_eq_bare {c : Char} (unmarked : isTokenMark c = false) : enter c = .bare := by
  simp only [isTokenMark, List.mem_cons, List.not_mem_nil, or_false, decide_eq_false_iff_not,
    not_or] at unmarked
  obtain ⟨noName, noConstant, noQuestion, noDollar⟩ := unmarked
  simp [enter, noName, noConstant, noQuestion, noDollar]

namespace Reader

variable {tokens : List Token}

theorem readAll_append (reader : Reader) (first second : List Char) :
    reader.readAll (first ++ second) = (reader.readAll first).readAll second :=
  List.foldl_append

/-- Nothing is read in plain text. -/
theorem readAll_unmarked {chars : List Char} (unmarked : ∀ c ∈ chars, isTokenMark c = false) :
    (Reader.mk tokens .bare).readAll chars = ⟨tokens, .bare⟩ := by
  induction chars with
  | nil => rfl
  | cons c rest ih =>
      have first : (Reader.mk tokens .bare).step c = ⟨tokens, .bare⟩ := by
        rw [step, ReaderMode.enter_eq_bare (unmarked c List.mem_cons_self)]
      rw [readAll, List.foldl_cons, first]
      exact ih fun other member => unmarked other (List.mem_cons_of_mem _ member)

/-- A token ends where a separating character follows it. -/
theorem step_of_tokens? {reader : Reader} (ended : reader.tokens? = some tokens) {c : Char}
    (unmarked : isTokenMark c = false) (noDigit : c.isDigit = false) :
    reader.step c = ⟨tokens, .bare⟩ := by
  have bare := ReaderMode.enter_eq_bare unmarked
  obtain ⟨before, mode⟩ := reader
  cases mode with
  | bare =>
      cases ended
      rw [step, bare]
  | quoted => cases ended
  | marked quote content =>
      cases ended
      have other : c ≠ quote.mark := by
        rintro rfl
        cases quote <;> cases unmarked
      rw [step, if_neg other, bare]
  | placeholder chars =>
      cases ended
      rw [step, noDigit, if_neg Bool.false_ne_true, bare]

/-- A separator ends the token before it, and none begins in it. -/
theorem readAll_separator {reader : Reader} (ended : reader.tokens? = some tokens) {text : String}
    (separates : Separates text) : reader.readAll text.toList = ⟨tokens, .bare⟩ := by
  obtain ⟨unmarked, starts⟩ := separates
  obtain ⟨c, head, noDigit⟩ := Option.any_eq_true _ _ |>.mp starts
  obtain ⟨rest, whole⟩ := List.head?_eq_some_iff.mp head
  rw [IsUnmarked, whole] at unmarked
  rw [Bool.not_eq_true'] at noDigit
  have first := step_of_tokens? ended (unmarked c List.mem_cons_self) noDigit
  rw [whole, readAll, List.foldl_cons, first]
  exact readAll_unmarked fun other member => unmarked other (List.mem_cons_of_mem _ member)

/-! ## Tokens -/

/-- Within a quote, each doubled mark stands for one. -/
theorem readAll_doubledChars (quote : Quote) (content chars : List Char) :
    (Reader.mk tokens (.quoted quote content)).readAll (doubledChars quote.mark chars) =
      ⟨tokens, .quoted quote (content ++ chars)⟩ := by
  induction chars generalizing content with
  | nil => rw [List.append_nil]; rfl
  | cons c rest ih =>
      have first : (Reader.mk tokens (.quoted quote content)).readAll
          (if c = quote.mark then [c, c] else [c]) = ⟨tokens, .quoted quote (content ++ [c])⟩ := by
        split
        · rename_i isMark
          simp [readAll, step, isMark]
        · rename_i other
          simp [readAll, step, other]
      rw [doubledChars_cons, readAll_append, first, ih, List.append_assoc, List.singleton_append]

/-- A text between quotes is read up to the mark behind it. -/
theorem readAll_doubled (quote : Quote) (text : String) :
    (Reader.mk tokens .bare).readAll (doubled quote.mark text).toList =
      ⟨tokens, .marked quote text.toList⟩ := by
  have opens : (Reader.mk tokens .bare).readAll [quote.mark] = ⟨tokens, .quoted quote []⟩ := by
    cases quote <;> rfl
  rw [toList_doubled, ← List.singleton_append, readAll_append, opens, readAll_append,
    readAll_doubledChars, List.nil_append]
  cases quote <;> rfl

theorem tokens?_readAll_doubled (quote : Quote) (text : String) :
    ((Reader.mk tokens .bare).readAll (doubled quote.mark text).toList).tokens? =
      some (tokens ++ [quote.token text]) := by
  rw [readAll_doubled, tokens?, String.ofList_toList]

theorem readAll_digits {digits : List Char} (areDigits : ∀ c ∈ digits, c.isDigit = true)
    (chars : List Char) : (Reader.mk tokens (.placeholder chars)).readAll digits =
      ⟨tokens, .placeholder (chars ++ digits)⟩ := by
  induction digits generalizing chars with
  | nil => rw [List.append_nil]; rfl
  | cons c rest ih =>
      have first : (Reader.mk tokens (.placeholder chars)).step c =
          ⟨tokens, .placeholder (chars ++ [c])⟩ := by
        rw [step, areDigits c List.mem_cons_self, if_pos rfl]
      rw [readAll, List.foldl_cons, first]
      have later := ih (fun other member => areDigits other (List.mem_cons_of_mem _ member))
        (chars ++ [c])
      rwa [List.append_assoc, List.singleton_append] at later

/-- A placeholder is read with all its digits. -/
theorem readAll_placeholder (dialect : Dialect) (position : Nat) :
    (Reader.mk tokens .bare).readAll (dialect.placeholder position).toList =
      ⟨tokens, .placeholder (dialect.placeholder position).toList⟩ := by
  cases dialect with
  | sqlite =>
      have chars : "?".toList = ['?'] := by decide
      rw [Dialect.placeholder, chars]
      rfl
  | postgres =>
      have areDigits : ∀ c ∈ position.repr.toList, c.isDigit = true := by
        rw [Nat.toList_repr]
        exact fun c member => isDigit_of_mem_toDigits member
      rw [Dialect.placeholder, String.toList_append, readAll_append]
      exact readAll_digits areDigits ['$']

end Reader

end SemanticQuery.Sql
