import Mathlib.Data.List.DropRight
import Mathlib.Logic.Embedding.Basic
import SemanticQuery.Proofs.Outcome
import SemanticQuery.Proofs.Step.Canonical

/-!
# Renaming the steps of a text

The references among the words of a text are renamed in place.  Whatever else stands in the text stays
as it is, so that quoted literals keep what looks like a reference.  The renamed text has the tokens of
the text with the references among them renamed.
-/

namespace SemanticQuery

def StepRef.reversed : StepRef ↪ StepRef where
  toFun reference :=
    ⟨String.ofList reference.name.toList.reverse, by simpa [isStepName] using reference.isName⟩
  inj' := by
    rintro ⟨first, _⟩ ⟨second, _⟩ same
    have names := congrArg (fun reference => reference.name.toList) same
    simpa [String.toList_inj] using names

variable (newName : StepRef ↪ StepRef)

namespace Token

/-- A word, with another name if it is a reference. -/
def renameWord (word : String) : String :=
  match StepRef.ofText? word with
  | some reference => (newName reference).text
  | none => word

def rename : Token → Token
  | .word text => .word (renameWord newName text)
  | .quoted text => .quoted text
  | .opening => .opening
  | .closing => .closing

theorem renameWord_isScanned {word : String} (scanned : (Token.word word).IsScanned) :
    (Token.word (renameWord newName word)).IsScanned := by
  unfold renameWord
  split
  · exact StepRef.text_isScanned _
  · exact scanned

namespace Scan

/-- What is written when the token under way ends: a word is held back until then. -/
def renameHeld : Scan → List Char
  | .word chars => (renameWord newName (String.ofList chars)).toList
  | .between | .literal .. | .escape .. => []

/-- The renamed characters from a place of the scanner on, the next one being at a position. -/
def renameFrom : Scan → Nat → List Char → List Char
  | place, _, [] => place.renameHeld newName
  | place, position, c :: rest =>
      match (place.next position c).2 with
      | .word chars => renameFrom (.word chars) (position + 1) rest
      | after => place.renameHeld newName ++ c :: renameFrom after (position + 1) rest

/-- The places of the scanner in a text and in the renamed one: a word is held back, and a literal may
have been opened at another position. -/
inductive Matches : Scan → Scan → Prop where
  | between : Matches .between .between
  | word {chars : List Char} (sound : (Scan.word chars).IsSound) : Matches (.word chars) .between
  | literal (mark : Char) (start other : Nat) (chars : List Char) :
      Matches (.literal mark start chars) (.literal mark other chars)
  | escape (mark : Char) (start other : Nat) (chars : List Char) :
      Matches (.escape mark start chars) (.escape mark other chars)

def Renames (chars : List Char) : Prop :=
  ∀ (place other : Scan) (position otherPosition : Nat), place.Matches other →
    (other.run otherPosition (place.renameFrom newName position chars)).toOption =
      (place.run position chars).toOption.map (List.map (Token.rename newName))

/-- A word that was held back is read as the renamed word. -/
theorem reads_renameHeld {chars : List Char} (sound : (Scan.word chars).IsSound) :
    Reads ((Scan.word chars).renameHeld newName)
      [Token.rename newName (.word (String.ofList chars))] := by
  have scanned : (Token.word (String.ofList chars)).IsScanned := by
    simpa [IsScanned, IsSound] using sound
  obtain ⟨nonempty, wordChars⟩ := renameWord_isScanned newName scanned
  simpa [renameHeld, Token.rename] using reads_word nonempty wordChars

theorem renames_nil : Renames newName [] := by
  intro place other position otherPosition same
  cases same with
  | between => rfl
  | word sound =>
      have reads := reads_renameHeld newName sound otherPosition [] nofun
      rw [List.append_nil] at reads
      rw [renameFrom, reads]
      rfl
  | literal => rfl
  | escape => rfl

variable {newName} {rest : List Char}

/-- The characters after those that have completed some tokens. -/
theorem Renames.after (renames : Renames newName rest) {place other : Scan}
    (same : place.Matches other) (position otherPosition : Nat) (tokens : List Token) :
    ((other.run otherPosition (place.renameFrom newName position rest)).map
        (tokens.map (Token.rename newName) ++ ·)).toOption =
      ((place.run position rest).map (tokens ++ ·)).toOption.map
        (List.map (Token.rename newName)) := by
  rw [toOption_map, toOption_map, renames _ _ position _ same, Option.map_map, Option.map_map]
  congr 1
  funext others
  simp

/-- A character that is no part of a word, between two tokens. -/
theorem Renames.run_enter (renames : Renames newName rest) {c : Char} (stops : isWordChar c = false)
    (position otherPosition : Nat) :
    (between.run otherPosition
        (c :: (enter position c).2.renameFrom newName (position + 1) rest)).toOption =
      (between.run position (c :: rest)).toOption.map (List.map (Token.rename newName)) := by
  simp only [run, next, enter]
  split_ifs with blank opening closing quote
  · exact renames.after .between _ _ []
  · exact renames.after .between _ _ [.opening]
  · exact renames.after .between _ _ [.closing]
  · exact renames.after (.literal c position otherPosition []) _ _ []
  · simp [isWordChar, blank, opening, closing, quote] at stops

/-- A character that is part of a word is held back. -/
theorem renameFrom_hold {place : Scan} {position : Nat} {c : Char} {chars : List Char}
    (held : (place.next position c).2 = .word chars) :
    place.renameFrom newName position (c :: rest) =
      (Scan.word chars).renameFrom newName (position + 1) rest := by
  rw [renameFrom, held]

/-- Any other character is written after what was held back. -/
theorem renameFrom_write {place after : Scan} {position : Nat} {c : Char}
    (reads : (place.next position c).2 = after) (noWord : ∀ chars, after ≠ .word chars) :
    place.renameFrom newName position (c :: rest) =
      place.renameHeld newName ++ c :: after.renameFrom newName (position + 1) rest := by
  rw [renameFrom, reads]
  cases after with
  | word chars => exact absurd rfl (noWord chars)
  | between | literal | escape => rfl

theorem enter_ne_word {c : Char} (stops : isWordChar c = false) (position : Nat)
    (chars : List Char) : (enter position c).2 ≠ .word chars := by
  unfold enter
  split_ifs with blank opening closing quote
  · nofun
  · nofun
  · nofun
  · nofun
  · simp [isWordChar, blank, opening, closing, quote] at stops

theorem next_literal_ne_word (mark : Char) (start : Nat) (chars : List Char) (position : Nat)
    (c : Char) (held : List Char) :
    ((Scan.literal mark start chars).next position c).2 ≠ .word held := by
  rw [next]
  split_ifs
  · simp
  · simp
  · simp

theorem Renames.cons (renames : Renames newName rest) (c : Char) : Renames newName (c :: rest) := by
  intro place other position otherPosition same
  cases same with
  | between =>
      cases wordChar : isWordChar c with
      | true =>
          have held : between.next position c = ([], .word [c]) :=
            enter_of_isWordChar wordChar position
          rw [renameFrom_hold (congrArg Prod.snd held), run_cons_silent held]
          exact renames _ _ _ _ (.word ⟨by simp, by simp [wordChar]⟩)
      | false =>
          have reads : (between.next position c).2 = (enter position c).2 := rfl
          rw [renameFrom_write reads (enter_ne_word wordChar position)]
          exact renames.run_enter wordChar _ _
  | @word chars sound =>
      cases wordChar : isWordChar c with
      | true =>
          have held : (Scan.word chars).next position c = ([], .word (chars ++ [c])) := by
            simp [next, wordChar]
          have longer := (next_scanned sound position c).2
          rw [held] at longer
          rw [renameFrom_hold (congrArg Prod.snd held), run_cons_silent held]
          exact renames _ _ _ _ (.word longer)
      | false =>
          -- The word that was held back ends here, and the character is read after it.
          have ends {more : List Char} : EndsWord (c :: more) := by
            rintro d ⟨⟩
            exact wordChar
          have reads : ((Scan.word chars).next position c).2 = (enter position c).2 := by
            simp [next, wordChar]
          rw [renameFrom_write reads (enter_ne_word wordChar position),
            reads_renameHeld newName sound _ _ ends, run_word_end ends, toOption_map, toOption_map,
            renames.run_enter wordChar position, Option.map_map, Option.map_map]
          rfl
  | literal mark start other chars =>
      rw [renameFrom_write rfl (next_literal_ne_word mark start chars position c)]
      simp only [renameHeld, List.nil_append, run, next]
      split_ifs
      · exact renames.after (.escape mark start other chars) _ _ []
      · exact renames.after .between _ _ [.quoted (String.ofList chars)]
      · exact renames.after (.literal mark start other (chars ++ [c])) _ _ []
  | escape mark start other chars =>
      exact renames.after (.literal mark start other (chars ++ [c])) _ _ []

variable (newName) in
theorem renames (chars : List Char) : Renames newName chars := by
  induction chars with
  | nil => exact renames_nil newName
  | cons c rest ih => exact ih.cons c

end Scan

def renameText (text : String) : String :=
  String.ofList (Scan.between.renameFrom newName 0 text.toList)

theorem tokenize_renameText (text : String) :
    (tokenize (renameText newName text)).toOption =
      (tokenize text).toOption.map (List.map (rename newName)) := by
  have whole := Scan.renames newName text.toList .between .between 0 0 .between
  rwa [tokenize, tokenize, renameText, String.toList_ofList]

example : renameText StepRef.reversed "(exact |12| '|12|' ab|12|)" = "(exact |21| '|12|' ab|12|)" := by
  decide +kernel

end Token

/-! ## Keys -/

namespace Text

theorem dropBlanks_append {blanks : List Char} (areBlank : ∀ c ∈ blanks, isBlank c = true)
    {c : Char} (notBlank : isBlank c = false) (rest : List Char) :
    dropBlanks (blanks ++ c :: rest) = c :: rest := by
  rw [dropBlanks, List.dropWhile_append_of_pos areBlank,
    List.dropWhile_cons_of_neg (by simp [notBlank])]

end Text

namespace StepRef

/-- Blanks around the text of a reference are trimmed. -/
theorem trim_padded (reference : StepRef) {before after : List Char}
    (blanksBefore : ∀ c ∈ before, Text.isBlank c = true)
    (blanksAfter : ∀ c ∈ after, Text.isBlank c = true) :
    Text.trim (String.ofList (before ++ reference.text.toList ++ after)) = reference.text := by
  have bar : Text.isBlank '|' = false := by decide
  apply String.toList_injective
  simp only [Text.trim, toList_text, String.toList_ofList, List.append_assoc, List.cons_append]
  rw [Text.dropBlanks_append blanksBefore bar]
  have turned : ('|' :: (reference.name.toList ++ ('|' :: ([] ++ after)))).reverse =
      after.reverse ++ '|' :: (reference.name.toList.reverse ++ ['|']) := by simp
  rw [turned, Text.dropBlanks_append (by simpa using blanksAfter) bar]
  simp

/-- The key of a step with another name.  The blanks around it stay. -/
def renameKey (key : String) : String :=
  match ofText? (Text.trim key) with
  | some reference => String.ofList (key.toList.takeWhile Text.isBlank ++
      (newName reference).text.toList ++ key.toList.rtakeWhile Text.isBlank)
  | none => key

theorem ofText?_trim_renameKey (key : String) :
    ofText? (Text.trim (renameKey newName key)) = (ofText? (Text.trim key)).map newName := by
  unfold renameKey
  split
  · rename_i reference found
    rw [found, trim_padded, ofText?_text, Option.map_some]
    · exact fun c member => List.mem_takeWhile_imp member
    · exact fun c member => List.mem_rtakeWhile_imp member
  · rename_i none
    rw [none, Option.map_none]

end StepRef

end SemanticQuery
