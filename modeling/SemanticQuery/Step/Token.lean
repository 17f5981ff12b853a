import SemanticQuery.Text.Blank

/-!
# Tokens of a step

A step is written as one flat list in parentheses. Its tokens are parentheses, words and quoted
literals; blanks separate them. In a quoted literal a backslash makes the next character ordinary.
The scanner reads one character at a time and knows only where it stands.
-/

namespace SemanticQuery

inductive Token where
  | opening
  | closing
  /-- A run of characters that are not blank, parentheses or quotes. -/
  | word (text : String)
  /-- A quoted literal without its quotes and escapes. -/
  | quoted (text : String)
  deriving DecidableEq

namespace Token

inductive FaultCause where
  | unterminatedLiteral
  | missingOpening
  | emptyStep
  | quotedOperation
  | nestedList
  | missingClosing
  | trailingText
  deriving DecidableEq

/-- Why and where a text is not a step. -/
structure Fault where
  position : Nat
  cause : FaultCause
  deriving DecidableEq

def FaultCause.message : FaultCause → String
  | .unterminatedLiteral => "unterminated quoted literal"
  | .missingOpening => "a step must start with '('"
  | .emptyStep => "empty step"
  | .quotedOperation => "operation name cannot be quoted"
  | .nestedList => "nested lists are not allowed"
  | .missingClosing => "missing closing ')'"
  | .trailingText => "unexpected text after ')'"

def isQuote (c : Char) : Bool :=
  c = '"' || c = '\x27'

def isWordChar (c : Char) : Bool :=
  !Text.isBlank c && c ≠ '(' && c ≠ ')' && !isQuote c

/-- Where the scanner stands between two characters, with the characters of the token it is in. -/
inductive Scan where
  | between
  | word (chars : List Char)
  /-- In a literal that was opened by `mark` at a position. -/
  | literal (mark : Char) (start : Nat) (chars : List Char)
  /-- In a literal, after a backslash. -/
  | escape (mark : Char) (start : Nat) (chars : List Char)

namespace Scan

/-- Reads a character outside words and literals: the tokens it completes and the next place. -/
def enter (position : Nat) (c : Char) : List Token × Scan :=
  if Text.isBlank c then ([], .between)
  else if c = '(' then ([.opening], .between)
  else if c = ')' then ([.closing], .between)
  else if isQuote c then ([], .literal c position [])
  else ([], .word [c])

/-- Reads a character: the tokens it completes and the next place. -/
def next : Scan → Nat → Char → List Token × Scan
  | .between, position, c => enter position c
  | .word chars, position, c =>
      if isWordChar c then ([], .word (chars ++ [c]))
      else (.word (String.ofList chars) :: (enter position c).1, (enter position c).2)
  | .literal mark start chars, _, c =>
      if c = '\\' then ([], .escape mark start chars)
      else if c = mark then ([.quoted (String.ofList chars)], .between)
      else ([], .literal mark start (chars ++ [c]))
  | .escape mark start chars, _, c => ([], .literal mark start (chars ++ [c]))

/-- The end of the text: a word ends there, a literal must not. -/
def finish : Scan → Except Fault (List Token)
  | .between => .ok []
  | .word chars => .ok [.word (String.ofList chars)]
  | .literal _ start _ => .error ⟨start, .unterminatedLiteral⟩
  | .escape _ start _ => .error ⟨start, .unterminatedLiteral⟩

/-- The tokens completed from a place on, the next character being at a position. -/
def run : Scan → Nat → List Char → Except Fault (List Token)
  | place, _, [] => place.finish
  | place, position, c :: rest =>
      ((place.next position c).2.run (position + 1) rest).map ((place.next position c).1 ++ ·)

end Scan

/-- The tokens of a text. The position of a fault counts characters. -/
def tokenize (text : String) : Except Fault (List Token) :=
  Scan.between.run 0 text.toList

/-- The tokens of a list up to its closing parenthesis; nothing may stand after it. The first
argument is the size of the text. -/
def arguments (size : Nat) : List Token → Except Fault (List Token)
  | [] => .error ⟨size, .missingClosing⟩
  | .closing :: rest => if rest.isEmpty then .ok [] else .error ⟨size, .trailingText⟩
  | .opening :: _ => .error ⟨0, .nestedList⟩
  | token :: rest => (arguments size rest).map (token :: ·)

/-- Splits tokens that form one flat list into the operation's name and the arguments. -/
def splitList (size : Nat) : List Token → Except Fault (String × List Token)
  | .opening :: .word name :: rest => (arguments size rest).map fun tokens => (name, tokens)
  | .opening :: .closing :: _ => .error ⟨0, .emptyStep⟩
  | .opening :: .quoted _ :: _ => .error ⟨0, .quotedOperation⟩
  | .opening :: .opening :: _ => .error ⟨0, .nestedList⟩
  | [.opening] => .error ⟨size, .missingClosing⟩
  | _ => .error ⟨0, .missingOpening⟩

/-- Splits the text of a step into the operation's name and the argument tokens. Faults at the
end of the text are placed at its size in bytes. -/
def splitStep (text : String) : Except Fault (String × List Token) := do
  splitList text.utf8ByteSize (← tokenize text)

example : (splitStep "( sort |3| 'a\\'b' )").toOption =
    some ("sort", [.word "|3|", .quoted "a'b"]) := by decide +kernel

end Token

end SemanticQuery
