import Mathlib.Tactic.SplitIfs
import SemanticQuery.Step.Basic
import SemanticQuery.Step.Token

/-!
# Scanning step texts

What the scanner yields and what it reads back.  Every word that it completes consists of word
characters.  Conversely, words, quoted literals with their escapes and parentheses are scanned as
one token each wherever no word goes on after them, and a text splits into an operation's name and
arguments exactly when its tokens are one flat list.
-/

namespace SemanticQuery

namespace Token

/-- What the scanner can complete: words are not empty and hold word characters only. -/
def IsScanned : Token → Prop
  | .word text => text.toList ≠ [] ∧ ∀ c ∈ text.toList, isWordChar c = true
  | .opening | .closing | .quoted _ => True

namespace Scan

/-- A word under way has begun and holds word characters only. -/
def IsSound : Scan → Prop
  | .word chars => chars ≠ [] ∧ ∀ c ∈ chars, isWordChar c = true
  | .between | .literal .. | .escape .. => True

/-! ## What the scanner completes -/

theorem enter_scanned (position : Nat) (c : Char) :
    (∀ token ∈ (enter position c).1, token.IsScanned) ∧ (enter position c).2.IsSound := by
  unfold enter
  split_ifs with blank opening closing quote
  · simp [IsSound]
  · simp [IsScanned, IsSound]
  · simp [IsScanned, IsSound]
  · simp [IsSound]
  · simp [IsSound, isWordChar, blank, opening, closing, quote]

theorem next_scanned {place : Scan} (sound : place.IsSound) (position : Nat) (c : Char) :
    (∀ token ∈ (place.next position c).1, token.IsScanned) ∧ (place.next position c).2.IsSound := by
  cases place with
  | between => exact enter_scanned position c
  | word chars =>
      by_cases wordChar : isWordChar c = true
      · simp only [next, wordChar, if_true, List.not_mem_nil, false_implies, implies_true, true_and]
        refine ⟨by simp, ?_⟩
        intro other member
        rcases List.mem_append.mp member with earlier | last
        · exact sound.2 other earlier
        · exact List.mem_singleton.mp last ▸ wordChar
      · simp only [next, wordChar, if_false, Bool.false_eq_true, List.mem_cons, forall_eq_or_imp]
        exact ⟨⟨by simpa [IsScanned, IsSound] using sound, (enter_scanned position c).1⟩,
          (enter_scanned position c).2⟩
  | literal mark start chars =>
      simp only [next]
      split_ifs <;> simp [IsScanned, IsSound]
  | escape mark start chars => simp [next, IsSound]

theorem finish_scanned {place : Scan} (sound : place.IsSound) {tokens : List Token}
    (finished : place.finish = .ok tokens) : ∀ token ∈ tokens, token.IsScanned := by
  cases place with
  | between =>
      cases finished
      simp
  | word chars =>
      cases finished
      simpa [IsScanned, IsSound] using sound
  | literal mark start chars => cases finished
  | escape mark start chars => cases finished

/-- Every token that a run completes is one that the scanner can complete. -/
theorem run_scanned (chars : List Char) {place : Scan} (sound : place.IsSound) {position : Nat}
    {tokens : List Token} (completed : place.run position chars = .ok tokens) :
    ∀ token ∈ tokens, token.IsScanned := by
  induction chars generalizing place position tokens with
  | nil => exact finish_scanned sound completed
  | cons c rest ih =>
      obtain ⟨scanned, nextSound⟩ := next_scanned sound position c
      rw [run] at completed
      cases later : (place.next position c).2.run (position + 1) rest with
      | error fault =>
          rw [later] at completed
          cases completed
      | ok others =>
          rw [later] at completed
          cases completed
          intro token member
          rcases List.mem_append.mp member with first | other
          · exact scanned token first
          · exact ih nextSound later token other

/-! ## Scanning written tokens -/

@[simp] theorem map_nil_append (outcome : Except Fault (List Token)) :
    outcome.map ([] ++ ·) = outcome := by
  cases outcome <;> rfl

/-- Tokens put in front one after the other are put in front together. -/
@[simp] theorem map_append_map (outcome : Except Fault (List Token)) (first second : List Token) :
    (outcome.map (second ++ ·)).map (first ++ ·) = outcome.map (first ++ second ++ ·) := by
  cases outcome <;> simp [Except.map]

/-- One character that completes tokens. -/
theorem run_cons {place after : Scan} {tokens : List Token} {position : Nat} {c : Char}
    (reads : place.next position c = (tokens, after)) (rest : List Char) :
    place.run position (c :: rest) = (after.run (position + 1) rest).map (tokens ++ ·) := by
  rw [run, reads]

/-- One character that completes no token. -/
theorem run_cons_silent {place after : Scan} {position : Nat} {c : Char}
    (reads : place.next position c = ([], after)) (rest : List Char) :
    place.run position (c :: rest) = after.run (position + 1) rest := by
  rw [run_cons reads, map_nil_append]

def EndsWord (chars : List Char) : Prop :=
  ∀ c ∈ chars.head?, isWordChar c = false

/--
Between two tokens the characters are scanned as the given tokens, whatever follows them as long as
no word goes on in it.
-/
def Reads (chars : List Char) (tokens : List Token) : Prop :=
  ∀ (position : Nat) (rest : List Char), EndsWord rest →
    between.run position (chars ++ rest) =
      (between.run (position + chars.length) rest).map (tokens ++ ·)

theorem Reads.nil : Reads [] [] := by
  intro position rest _
  rw [map_nil_append]
  rfl

theorem EndsWord.append {chars rest : List Char} (ends : EndsWord chars)
    (restEnds : EndsWord rest) : EndsWord (chars ++ rest) := by
  cases chars with
  | nil => exact restEnds
  | cons c tail => exact ends

/-- Readings are joined where no word goes on. -/
theorem Reads.append {chars others : List Char} {tokens more : List Token}
    (first : Reads chars tokens) (second : Reads others more) (ends : EndsWord others) :
    Reads (chars ++ others) (tokens ++ more) := by
  intro position rest restEnds
  rw [List.append_assoc, first position _ (ends.append restEnds), second _ rest restEnds,
    map_append_map, List.length_append, Nat.add_assoc]

/-- A character that starts neither a word nor a literal is read on its own. -/
theorem Reads.cons {c : Char} {others : List Char} {tokens more : List Token}
    (alone : ∀ position, between.next position c = (tokens, between)) (later : Reads others more) :
    Reads (c :: others) (tokens ++ more) := by
  intro position rest ends
  rw [List.cons_append, run_cons (alone position), later _ rest ends, map_append_map,
    List.length_cons, Nat.add_assoc, Nat.add_comm 1]

theorem enter_of_isWordChar {c : Char} (wordChar : isWordChar c = true) (position : Nat) :
    enter position c = ([], .word [c]) := by
  simp only [isWordChar, Bool.and_eq_true, Bool.not_eq_true', decide_eq_true_eq] at wordChar
  obtain ⟨⟨⟨blank, opening⟩, closing⟩, quote⟩ := wordChar
  simp [enter, blank, opening, closing, quote]

/-- A word under way takes in the word characters that follow it. -/
theorem run_word_append (chars : List Char) (wordChars : ∀ c ∈ chars, isWordChar c = true)
    (before rest : List Char) (position : Nat) :
    (Scan.word before).run position (chars ++ rest) =
      (Scan.word (before ++ chars)).run (position + chars.length) rest := by
  induction chars generalizing before position with
  | nil => simp
  | cons c tail ih =>
      have first := wordChars c List.mem_cons_self
      have others : ∀ d ∈ tail, isWordChar d = true :=
        fun d member => wordChars d (List.mem_cons_of_mem c member)
      have grows : (Scan.word before).next position c = ([], .word (before ++ [c])) := by
        simp [next, first]
      rw [List.cons_append, run_cons_silent grows, ih others]
      simp only [List.append_assoc, List.singleton_append, List.length_cons, Nat.add_assoc,
        Nat.add_comm 1]

/-- A word is complete where no word goes on. -/
theorem run_word_end {rest : List Char} (ends : EndsWord rest) (chars : List Char)
    (position : Nat) :
    (Scan.word chars).run position rest =
      (between.run position rest).map ([Token.word (String.ofList chars)] ++ ·) := by
  cases rest with
  | nil => rfl
  | cons c tail =>
      have stops : isWordChar c = false := ends c rfl
      simp only [run, next, stops, Bool.false_eq_true, if_false, map_append_map]
      rfl

theorem reads_word {chars : List Char} (nonempty : chars ≠ [])
    (wordChars : ∀ c ∈ chars, isWordChar c = true) :
    Reads chars [.word (String.ofList chars)] := by
  intro position rest ends
  obtain ⟨c, tail, rfl⟩ := List.exists_cons_of_ne_nil nonempty
  have first := wordChars c List.mem_cons_self
  have others : ∀ d ∈ tail, isWordChar d = true :=
    fun d member => wordChars d (List.mem_cons_of_mem c member)
  have begins : between.next position c = ([], .word [c]) := enter_of_isWordChar first position
  rw [List.cons_append, run_cons_silent begins, run_word_append tail others, run_word_end ends]
  simp only [List.singleton_append, List.length_cons, Nat.add_assoc, Nat.add_comm 1]

/-- In a literal between double quotes, the escaped form of a character stands for it. -/
theorem run_literal_escapeChar (c : Char) (start : Nat) (before rest : List Char)
    (position : Nat) :
    (Scan.literal '"' start before).run position (Literal.escapeChar c ++ rest) =
      (Scan.literal '"' start (before ++ [c])).run
        (position + (Literal.escapeChar c).length) rest := by
  by_cases special : c = '"' ∨ c = '\\'
  · have escaped : Literal.escapeChar c = ['\\', c] := by simp [Literal.escapeChar, special]
    have slash : (Scan.literal '"' start before).next position '\\' =
        ([], .escape '"' start before) := rfl
    have char : (Scan.escape '"' start before).next (position + 1) c =
        ([], .literal '"' start (before ++ [c])) := rfl
    rw [escaped, List.cons_append, run_cons_silent slash, List.singleton_append,
      run_cons_silent char]
    rfl
  · have plain : Literal.escapeChar c = [c] := by simpa [Literal.escapeChar] using special
    have char : (Scan.literal '"' start before).next position c =
        ([], .literal '"' start (before ++ [c])) := by
      rw [not_or] at special
      simp [next, special]
    rw [plain, List.singleton_append, run_cons_silent char]
    rfl

theorem run_literal_escaped (text : List Char) (start : Nat) (before rest : List Char)
    (position : Nat) :
    (Scan.literal '"' start before).run position (text.flatMap Literal.escapeChar ++ rest) =
      (Scan.literal '"' start (before ++ text)).run
        (position + (text.flatMap Literal.escapeChar).length) rest := by
  induction text generalizing before position with
  | nil => simp
  | cons c tail ih =>
      rw [List.flatMap_cons, List.append_assoc, run_literal_escapeChar, ih]
      simp [Nat.add_assoc]

theorem reads_quoted (text : List Char) :
    Reads ('"' :: (text.flatMap Literal.escapeChar ++ ['"'])) [.quoted (String.ofList text)] := by
  intro position rest _
  have opens : between.next position '"' = ([], .literal '"' position []) := rfl
  have closes : (Scan.literal '"' position text).next
      (position + 1 + (text.flatMap Literal.escapeChar).length) '"' =
        ([.quoted (String.ofList text)], .between) := rfl
  rw [List.cons_append, run_cons_silent opens, List.append_assoc, run_literal_escaped,
    List.singleton_append, List.nil_append, run_cons closes]
  simp only [List.length_cons, List.length_append, List.length_nil, Nat.zero_add, Nat.add_assoc,
    Nat.add_comm 1]

end Scan

theorem tokenize_scanned {text : String} {tokens : List Token}
    (tokenized : tokenize text = .ok tokens) : ∀ token ∈ tokens, token.IsScanned := by
  have start : Scan.between.IsSound := trivial
  exact Scan.run_scanned text.toList start tokenized

theorem tokenize_of_reads {text : String} {tokens : List Token}
    (reads : Scan.Reads text.toList tokens) : tokenize text = .ok tokens := by
  have whole := reads 0 [] nofun
  rw [List.append_nil] at whole
  rw [tokenize, whole]
  simp [Scan.run, Scan.finish, Except.map]

def isArgument : Token → Bool
  | .word _ | .quoted _ => true
  | .opening | .closing => false

/-- The arguments of a list end at its closing parenthesis. -/
theorem arguments_append_closing (size : Nat) {inner : List Token}
    (argumentsOnly : ∀ token ∈ inner, token.isArgument = true) :
    arguments size (inner ++ [.closing]) = .ok inner := by
  induction inner with
  | nil => rfl
  | cons token rest ih =>
      have first := argumentsOnly token List.mem_cons_self
      have others := ih fun other member => argumentsOnly other (List.mem_cons_of_mem token member)
      cases token with
      | opening => cases first
      | closing => cases first
      | word text => simp [arguments, others, Except.map]
      | quoted text => simp [arguments, others, Except.map]

/-- Nothing but a closing parenthesis stands after the arguments of a list. -/
theorem eq_append_closing_of_arguments {size : Nat} {tokens inner : List Token}
    (found : arguments size tokens = .ok inner) :
    tokens = inner ++ [.closing] ∧ ∀ token ∈ inner, token.isArgument = true := by
  fun_induction arguments size tokens generalizing inner with
  | case1 => cases found
  | case2 rest empty =>
      cases found
      simpa using empty
  | case3 => cases found
  | case4 => cases found
  | case5 token rest notClosing notOpening ih =>
      cases later : arguments size rest with
      | error fault =>
          rw [later] at found
          cases found
      | ok others =>
          rw [later] at found
          cases found
          obtain ⟨rfl, argumentsOnly⟩ := ih later
          refine ⟨rfl, ?_⟩
          intro other member
          rcases List.mem_cons.mp member with rfl | member
          · cases other <;> simp_all [isArgument]
          · exact argumentsOnly other member

/-- A text whose tokens are one flat list that starts with a word splits into its parts. -/
theorem splitStep_of_tokenize {text name : String} {inner : List Token}
    (tokenized : tokenize text = .ok (.opening :: .word name :: (inner ++ [.closing])))
    (argumentsOnly : ∀ token ∈ inner, token.isArgument = true) :
    splitStep text = .ok (name, inner) := by
  have split := arguments_append_closing text.utf8ByteSize argumentsOnly
  simp [splitStep, tokenized, bind, Except.bind, splitList, split, Except.map]

/-- A text that splits is one flat list that starts with a word. -/
theorem tokenize_of_splitStep {text name : String} {inner : List Token}
    (split : splitStep text = .ok (name, inner)) :
    tokenize text = .ok (.opening :: .word name :: (inner ++ [.closing])) ∧
      ∀ token ∈ inner, token.isArgument = true := by
  unfold splitStep at split
  cases tokenized : tokenize text with
  | error fault =>
      rw [tokenized] at split
      cases split
  | ok tokens =>
      rw [tokenized] at split
      change splitList text.utf8ByteSize tokens = .ok (name, inner) at split
      unfold splitList at split
      split at split
      · rename_i word rest
        cases found : arguments text.utf8ByteSize rest with
        | error fault =>
            rw [found] at split
            cases split
        | ok others =>
            rw [found] at split
            cases split
            obtain ⟨rfl, argumentsOnly⟩ := eq_append_closing_of_arguments found
            exact ⟨rfl, argumentsOnly⟩
      all_goals cases split

end Token

end SemanticQuery
