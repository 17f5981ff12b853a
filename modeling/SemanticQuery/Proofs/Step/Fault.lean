import Mathlib.Data.List.TakeWhile
import Mathlib.Data.String.Basic
import SemanticQuery.Proofs.Step.Grammar

/-!
# Where a text is at fault

Every text either consists of written tokens or opens a literal that nothing closes.  In the second case
the scanner points at the opening mark, counting characters, and so into the text.  When the tokens are
no flat list, the fault is placed at the start of the text or at its size in bytes, and the size in bytes
lies in the text exactly if every character is an ASCII one.
-/

namespace SemanticQuery.Token

/-! ## Literals that are left open -/

/-- The characters after an opening mark, up to the end of the text, if none of them closes the
literal. -/
inductive IsUnclosed (mark : Char) : List Char → Prop where
  | nil : IsUnclosed mark []
  /-- At the end of the text a backslash makes nothing ordinary. -/
  | backslash : IsUnclosed mark ['\\']
  | escaped {chars : List Char} (c : Char) (rest : IsUnclosed mark chars) :
      IsUnclosed mark ('\\' :: c :: chars)
  | plain {chars : List Char} {c : Char} (noMark : c ≠ mark) (noEscape : c ≠ '\\')
      (rest : IsUnclosed mark chars) : IsUnclosed mark (c :: chars)

/-- At a position of a text, after written tokens, stands a mark whose literal is left open. -/
inductive LeavesOpen : List Char → Nat → Prop where
  | literal {before after : List Char} {tokens : List Token} {mark : Char}
      (lexes : Lexes before tokens) (isMark : isQuote mark = true)
      (unclosed : IsUnclosed mark after) : LeavesOpen (before ++ mark :: after) before.length

/-- After an opening mark, the literal ends somewhere or is left open. -/
theorem isEnclosed_or_isUnclosed (mark : Char) (chars : List Char) :
    (∃ enclosed content rest, chars = enclosed ++ rest ∧ IsEnclosed mark enclosed content) ∨
      IsUnclosed mark chars := by
  -- A backslash takes two characters off.
  induction size : chars.length using Nat.strongRecOn generalizing chars with
  | _ size ih =>
      subst size
      cases chars with
      | nil => exact .inr .nil
      | cons c tail =>
          by_cases isMark : c = mark
          · subst isMark
            exact .inl ⟨[c], [], tail, rfl, .close⟩
          by_cases isEscape : c = '\\'
          · subst isEscape
            cases tail with
            | nil => exact .inr .backslash
            | cons d tail =>
                rcases ih tail.length (by simp only [List.length_cons]; omega) tail rfl with
                  ⟨enclosed, content, rest, rfl, isEnclosed⟩ | unclosed
                · exact .inl ⟨'\\' :: d :: enclosed, d :: content, rest, rfl, .escaped d isEnclosed⟩
                · exact .inr (.escaped d unclosed)
          · rcases ih tail.length (by simp) tail rfl with
              ⟨enclosed, content, rest, rfl, isEnclosed⟩ | unclosed
            · exact .inl ⟨c :: enclosed, c :: content, rest, rfl, .plain isMark isEscape isEnclosed⟩
            · exact .inr (.plain isMark isEscape unclosed)

theorem Scan.EndsWord.left {before after : List Char} (ends : EndsWord (before ++ after)) :
    EndsWord before := by
  cases before with
  | nil => nofun
  | cons c tail => exact ends

theorem LeavesOpen.blank {c : Char} {chars : List Char} {position : Nat}
    (isBlank : Text.isBlank c = true) (leavesOpen : LeavesOpen chars position) :
    LeavesOpen (c :: chars) (position + 1) := by
  cases leavesOpen with
  | literal lexes isMark unclosed => exact .literal (lexes.blank isBlank) isMark unclosed

theorem LeavesOpen.token {chars rest : List Char} {token : Token} {position : Nat}
    (spelled : IsSpelled chars token) (ends : token.isWord = true → Scan.EndsWord rest)
    (leavesOpen : LeavesOpen rest position) :
    LeavesOpen (chars ++ rest) (chars.length + position) := by
  cases leavesOpen with
  | literal lexes isMark unclosed =>
      have longer := lexes.token spelled fun isWord => (ends isWord).left
      rw [← List.append_assoc, ← List.length_append]
      exact .literal longer isMark unclosed

/-- The characters of a text are written tokens, or some literal is left open. -/
def IsSettled (chars : List Char) : Prop :=
  (∃ tokens, Lexes chars tokens) ∨ ∃ position, LeavesOpen chars position

theorem IsSettled.blank {c : Char} {chars : List Char} (isBlank : Text.isBlank c = true)
    (settled : IsSettled chars) : IsSettled (c :: chars) := by
  rcases settled with ⟨tokens, lexes⟩ | ⟨position, leavesOpen⟩
  · exact .inl ⟨tokens, lexes.blank isBlank⟩
  · exact .inr ⟨position + 1, leavesOpen.blank isBlank⟩

theorem IsSettled.token {chars rest : List Char} {token : Token} (spelled : IsSpelled chars token)
    (ends : token.isWord = true → Scan.EndsWord rest) (settled : IsSettled rest) :
    IsSettled (chars ++ rest) := by
  rcases settled with ⟨tokens, lexes⟩ | ⟨position, leavesOpen⟩
  · exact .inl ⟨token :: tokens, lexes.token spelled ends⟩
  · exact .inr ⟨chars.length + position, leavesOpen.token spelled ends⟩

/-- A word and the characters after it. -/
theorem exists_word_append {c : Char} (wordChar : isWordChar c = true) (tail : List Char) :
    ∃ more rest, tail = more ++ rest ∧ IsSpelled (c :: more) (.word (String.ofList (c :: more))) ∧
      Scan.EndsWord rest := by
  refine ⟨tail.takeWhile isWordChar, tail.dropWhile isWordChar,
    List.takeWhile_append_dropWhile.symm, .word (List.cons_ne_nil _ _) ?_, ?_⟩
  · exact List.forall_mem_cons.mpr ⟨wordChar, fun d member => List.mem_takeWhile_imp member⟩
  · intro d first
    have stops := List.head?_dropWhile_not isWordChar tail
    rw [Option.mem_def.mp first] at stops
    exact stops

/-- Nothing else can happen at the front of a text: a blank, a parenthesis, a word or a literal. -/
theorem isSettled (chars : List Char) : IsSettled chars := by
  -- Words and literals are taken off as a whole, so the induction is on the length.
  induction size : chars.length using Nat.strongRecOn generalizing chars with
  | _ size ih =>
      subst size
      cases chars with
      | nil => exact .inl ⟨[], .nil (List.forall_mem_nil _)⟩
      | cons c tail =>
          have later : IsSettled tail := ih tail.length (by simp) tail rfl
          by_cases isBlank : Text.isBlank c = true
          · exact later.blank isBlank
          by_cases isOpening : c = '('
          · subst isOpening
            exact later.token .opening nofun
          by_cases isClosing : c = ')'
          · subst isClosing
            exact later.token .closing nofun
          by_cases isMark : isQuote c = true
          · rcases isEnclosed_or_isUnclosed c tail with
              ⟨enclosed, content, rest, rfl, isEnclosed⟩ | unclosed
            · have shorter : rest.length < (c :: (enclosed ++ rest)).length := by
                simp only [List.length_cons, List.length_append]
                omega
              exact (ih rest.length shorter rest rfl).token (.quoted isMark isEnclosed) nofun
            · exact .inr ⟨0, .literal (.nil (List.forall_mem_nil _)) isMark unclosed⟩
          · have wordChar : isWordChar c = true := by
              simp [isWordChar, isBlank, isOpening, isClosing, isMark]
            obtain ⟨more, rest, rfl, spelled, ends⟩ := exists_word_append wordChar tail
            have shorter : rest.length < (c :: (more ++ rest)).length := by
              simp only [List.length_cons, List.length_append]
              omega
            exact (ih rest.length shorter rest rfl).token spelled fun _ => ends

/-! ## Faults of the scanner -/

theorem Scan.run_unclosed {mark : Char} {chars : List Char} (unclosed : IsUnclosed mark chars)
    (start : Nat) (before : List Char) (position : Nat) :
    (Scan.literal mark start before).run position chars =
      .error ⟨start, .unterminatedLiteral⟩ := by
  induction unclosed generalizing before position with
  | nil => rfl
  | backslash => rfl
  | escaped c _ ih =>
      have slash : (Scan.literal mark start before).next position '\\' =
          ([], .escape mark start before) := rfl
      have char : (Scan.escape mark start before).next (position + 1) c =
          ([], .literal mark start (before ++ [c])) := rfl
      rw [run_cons_silent slash, run_cons_silent char, ih]
  | @plain chars c noMark noEscape _ ih =>
      have char : (Scan.literal mark start before).next position c =
          ([], .literal mark start (before ++ [c])) := by
        simp [next, noMark, noEscape]
      rw [run_cons_silent char, ih]

theorem tokenize_of_leavesOpen {text : String} {position : Nat}
    (leavesOpen : LeavesOpen text.toList position) :
    tokenize text = .error ⟨position, .unterminatedLiteral⟩ := by
  unfold tokenize
  generalize text.toList = chars at leavesOpen
  cases leavesOpen with
  | @literal before after tokens mark lexes isMark unclosed =>
      have ends : Scan.EndsWord (mark :: after) := by
        rintro c ⟨⟩
        exact not_isWordChar_of_isQuote isMark
      rw [Scan.reads_of_lexes lexes 0 _ ends, Scan.run_cons_silent (Scan.next_of_isQuote isMark _),
        Scan.run_unclosed unclosed, Nat.zero_add]
      rfl

/-- The scanner fails exactly where a literal is left open. -/
theorem tokenize_eq_error_iff {text : String} {fault : Fault} :
    tokenize text = .error fault ↔
      LeavesOpen text.toList fault.position ∧ fault.cause = .unterminatedLiteral := by
  constructor
  · intro failed
    rcases isSettled text.toList with ⟨tokens, lexes⟩ | ⟨position, leavesOpen⟩
    · rw [tokenize_eq_ok_iff.mpr lexes] at failed
      cases failed
    · rw [tokenize_of_leavesOpen leavesOpen] at failed
      cases failed
      exact ⟨leavesOpen, rfl⟩
  · obtain ⟨position, cause⟩ := fault
    rintro ⟨leavesOpen, rfl⟩
    exact tokenize_of_leavesOpen leavesOpen

theorem LeavesOpen.lt_length {chars : List Char} {position : Nat}
    (leavesOpen : LeavesOpen chars position) : position < chars.length := by
  cases leavesOpen with
  | literal => simp

/-! ## Faults of a list -/

def FaultCause.isAtEnd : FaultCause → Bool
  | .missingClosing | .trailingText => true
  | _ => false

/-- A fault of tokens that are no flat list.  It is placed at the start of the text, or at its size if it
is found at the end. -/
structure IsListFault (size : Nat) (fault : Fault) : Prop where
  cause_ne : fault.cause ≠ .unterminatedLiteral
  position_eq : fault.position = if fault.cause.isAtEnd then size else 0

namespace IsListFault

theorem atStart {cause : FaultCause} (size : Nat) (early : cause.isAtEnd = false)
    (noLiteral : cause ≠ .unterminatedLiteral) : IsListFault size ⟨0, cause⟩ :=
  ⟨noLiteral, by rw [early]; rfl⟩

theorem atEnd {cause : FaultCause} (size : Nat) (late : cause.isAtEnd = true) :
    IsListFault size ⟨size, cause⟩ := by
  refine ⟨?_, (if_pos late).symm⟩
  rintro rfl
  cases late

end IsListFault

theorem failsOnly_arguments (size : Nat) (tokens : List Token) :
    FailsOnly (IsListFault size) (arguments size tokens) := by
  fun_induction arguments size tokens with
  | case1 => exact FailsOnly.error_iff.mpr (.atEnd size rfl)
  | case2 => exact .ok _
  | case3 => exact FailsOnly.error_iff.mpr (.atEnd size rfl)
  | case4 => exact FailsOnly.error_iff.mpr (.atStart size rfl (by decide))
  | case5 token rest _ _ ih => exact ih.map _

theorem failsOnly_splitList (size : Nat) (tokens : List Token) :
    FailsOnly (IsListFault size) (splitList size tokens) := by
  unfold splitList
  split
  · exact (failsOnly_arguments size _).map _
  · exact FailsOnly.error_iff.mpr (.atStart size rfl (by decide))
  · exact FailsOnly.error_iff.mpr (.atStart size rfl (by decide))
  · exact FailsOnly.error_iff.mpr (.atStart size rfl (by decide))
  · exact FailsOnly.error_iff.mpr (.atEnd size rfl)
  · exact FailsOnly.error_iff.mpr (.atStart size rfl (by decide))

/-- Splitting fails as the scanner does, or because the tokens are no flat list. -/
theorem splitStep_fault_cases {text : String} {fault : Fault} (failed : splitStep text = .error fault) :
    tokenize text = .error fault ∨ IsListFault text.utf8ByteSize fault := by
  rcases bind_eq_error_iff.mp failed with failed | ⟨tokens, -, failed⟩
  · exact .inl failed
  · exact .inr (failsOnly_splitList _ tokens fault failed)

/-! ## Sizes in characters and in bytes -/

/-- A text has at least as many bytes as characters. -/
theorem length_le_utf8Len (chars : List Char) : chars.length ≤ String.utf8Len chars := by
  induction chars with
  | nil => exact Nat.le_refl _
  | cons c tail ih =>
      have positive := c.utf8Size_pos
      rw [List.length_cons, String.utf8Len_cons]
      omega

/-- A text has as many bytes as characters exactly if all of them are ASCII characters. -/
theorem utf8Len_le_length_iff (chars : List Char) :
    String.utf8Len chars ≤ chars.length ↔ ∀ c ∈ chars, c.toNat < 128 := by
  induction chars with
  | nil => simp
  | cons c tail ih =>
      have positive := c.utf8Size_pos
      have atLeast := length_le_utf8Len tail
      have single : c.utf8Size = 1 ↔ c.toNat < 128 := by
        rw [Char.utf8Size_eq_one_iff, UInt32.le_iff_toNat_le]
        exact (Nat.lt_succ_iff (n := 127)).symm
      rw [List.forall_mem_cons, ← ih, ← single, List.length_cons, String.utf8Len_cons]
      omega

/--
The scanner fails only at the opening mark of a literal that is left open, which is a character of the
text.  Splitting fails there as well, or at the start, or at the size of the text in bytes; the position
of a fault lies in the text unless it is such a size and some character takes more than one byte.
-/
theorem fault_position_exact (text : String) (fault : Fault) :
    (tokenize text = .error fault →
      fault.cause = .unterminatedLiteral ∧ LeavesOpen text.toList fault.position ∧
        fault.position < text.length) ∧
    (splitStep text = .error fault →
      (tokenize text = .error fault ∨
        fault.cause ≠ .unterminatedLiteral ∧
          fault.position = if fault.cause.isAtEnd then text.utf8ByteSize else 0) ∧
      (fault.position ≤ text.length ↔
        (fault.cause.isAtEnd = true → ∀ c ∈ text.toList, c.toNat < 128))) := by
  have ofScanner (failed : tokenize text = .error fault) : fault.cause = .unterminatedLiteral ∧
      LeavesOpen text.toList fault.position ∧ fault.position < text.length := by
    obtain ⟨leavesOpen, cause⟩ := tokenize_eq_error_iff.mp failed
    exact ⟨cause, leavesOpen, String.length_toList ▸ leavesOpen.lt_length⟩
  refine ⟨ofScanner, fun failed => ?_⟩
  rcases splitStep_fault_cases failed with scanned | ofList
  · obtain ⟨cause, -, inside⟩ := ofScanner scanned
    have notAtEnd : fault.cause.isAtEnd = false := by rw [cause]; rfl
    refine ⟨.inl scanned, iff_of_true (Nat.le_of_lt inside) ?_⟩
    rw [notAtEnd]
    nofun
  · refine ⟨.inr ⟨ofList.cause_ne, ofList.position_eq⟩, ?_⟩
    rw [ofList.position_eq]
    cases fault.cause.isAtEnd with
    | false => simp
    | true =>
        rw [if_pos rfl, ← String.utf8Len_toList, ← String.length_toList, utf8Len_le_length_iff]
        exact ⟨fun ascii _ => ascii, fun ascii => ascii rfl⟩

/-- A literal that is left open is found behind characters of any size; at the end, the position fits a
text of ASCII characters. -/
theorem fault_position_exact_openLiteral :
    (tokenize "é 'é" = .error ⟨2, .unterminatedLiteral⟩ ∧
      splitStep "é 'é" = .error ⟨2, .unterminatedLiteral⟩ ∧
      LeavesOpen "é 'é".toList 2 ∧ 2 ≤ "é 'é".length) ∧
    splitStep "(add 1 2" = .error ⟨8, .missingClosing⟩ ∧ 8 ≤ "(add 1 2".length := by
  have scanned : tokenize "é 'é" = .error ⟨2, .unterminatedLiteral⟩ := by decide +kernel
  have split : splitStep "é 'é" = .error ⟨2, .unterminatedLiteral⟩ := by decide +kernel
  have unended : splitStep "(add 1 2" = .error ⟨8, .missingClosing⟩ := by decide +kernel
  have ascii : ("(add 1 2".toList.all fun c => c.toNat < 128) = true := by decide +kernel
  have positions := fault_position_exact "é 'é" ⟨2, .unterminatedLiteral⟩
  have endPositions := (fault_position_exact "(add 1 2" ⟨8, .missingClosing⟩).2 unended
  exact ⟨⟨scanned, split, (positions.1 scanned).2.1, (positions.2 split).2.mpr nofun⟩,
    unended, endPositions.2.mpr fun _ c member => by simpa using List.all_eq_true.mp ascii c member⟩

/-- A list that is not closed is placed behind the text if some character takes two bytes. -/
theorem exists_fault_beyond_text :
    ∃ text fault, splitStep text = .error fault ∧ text.length < fault.position := by
  refine ⟨"(é", ⟨3, .missingClosing⟩, ?_, ?_⟩ <;> decide +kernel

end SemanticQuery.Token
