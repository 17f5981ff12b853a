import SemanticQuery.Proofs.Outcome
import SemanticQuery.Proofs.Step.Scan

/-!
# The grammar of step texts

A step is one flat list in parentheses: a word that names the operation, then words and quoted
literals.  Blanks may stand around all of them, and must stand between two words.  A text is split
exactly if it has such a form, and then into the parts that it is made of; no text has two readings.
-/

namespace SemanticQuery.Token

/-! ## The grammar -/

def AreBlank (chars : List Char) : Prop :=
  ∀ c ∈ chars, Text.isBlank c = true

def isWord : Token → Bool
  | .word _ => true
  | .opening | .closing | .quoted _ => false

/-- The characters of a quoted literal after its first mark, and what they stand for.  The literal
ends at the first mark that no backslash makes ordinary. -/
inductive IsEnclosed (mark : Char) : List Char → List Char → Prop where
  | close : IsEnclosed mark [mark] []
  | escaped {chars content : List Char} (c : Char) (rest : IsEnclosed mark chars content) :
      IsEnclosed mark ('\\' :: c :: chars) (c :: content)
  | plain {chars content : List Char} {c : Char} (noMark : c ≠ mark) (noEscape : c ≠ '\\')
      (rest : IsEnclosed mark chars content) : IsEnclosed mark (c :: chars) (c :: content)

inductive IsSpelled : List Char → Token → Prop where
  | opening : IsSpelled ['('] .opening
  | closing : IsSpelled [')'] .closing
  | word {chars : List Char} (nonempty : chars ≠ [])
      (wordChars : ∀ c ∈ chars, isWordChar c = true) : IsSpelled chars (.word (String.ofList chars))
  | quoted {mark : Char} {chars content : List Char} (isMark : isQuote mark = true)
      (enclosed : IsEnclosed mark chars content) :
      IsSpelled (mark :: chars) (.quoted (String.ofList content))

/-- Arguments as they are written after some token. -/
inductive AreArguments : Token → List Char → List Token → Prop where
  | nil (before : Token) : AreArguments before [] []
  | cons {before token : Token} {blanks chars rest : List Char} {tokens : List Token}
      (blank : AreBlank blanks)
      -- Two words are not written together; a word may touch a quoted literal.
      (apart : before.isWord = true → token.isWord = true → blanks ≠ [])
      (isArgument : token.isArgument = true) (spelled : IsSpelled chars token)
      (others : AreArguments token rest tokens) :
      AreArguments before (blanks ++ (chars ++ rest)) (token :: tokens)

inductive IsStepText : List Char → String → List Token → Prop where
  | list {leading inner name written after trailing : List Char} {arguments : List Token}
      (leadingBlank : AreBlank leading) (innerBlank : AreBlank inner)
      (nonempty : name ≠ []) (wordChars : ∀ c ∈ name, isWordChar c = true)
      (areArguments : AreArguments (.word (String.ofList name)) written arguments)
      (afterBlank : AreBlank after) (trailingBlank : AreBlank trailing) :
      IsStepText
        (leading ++ '(' :: (inner ++ (name ++ (written ++ (after ++ ')' :: trailing)))))
        (String.ofList name) arguments

/-! ## The tokens of a text -/

/-- Characters that are written tokens with blanks around them, where no word goes on after a word. -/
inductive Lexes : List Char → List Token → Prop where
  | nil {blanks : List Char} (blank : AreBlank blanks) : Lexes blanks []
  | cons {blanks chars rest : List Char} {token : Token} {tokens : List Token}
      (blank : AreBlank blanks) (spelled : IsSpelled chars token)
      (ends : token.isWord = true → Scan.EndsWord rest) (others : Lexes rest tokens) :
      Lexes (blanks ++ (chars ++ rest)) (token :: tokens)

theorem Lexes.blank {c : Char} {chars : List Char} {tokens : List Token}
    (isBlank : Text.isBlank c = true) (lexes : Lexes chars tokens) : Lexes (c :: chars) tokens := by
  cases lexes with
  | nil blank => exact .nil (List.forall_mem_cons.mpr ⟨isBlank, blank⟩)
  | cons blank spelled ends others =>
      exact .cons (List.forall_mem_cons.mpr ⟨isBlank, blank⟩) spelled ends others

/-- A token at the front of a text, without blanks before it. -/
theorem Lexes.token {chars rest : List Char} {token : Token} {tokens : List Token}
    (spelled : IsSpelled chars token) (ends : token.isWord = true → Scan.EndsWord rest)
    (others : Lexes rest tokens) : Lexes (chars ++ rest) (token :: tokens) := by
  have whole : Lexes ([] ++ (chars ++ rest)) (token :: tokens) :=
    .cons (List.forall_mem_nil _) spelled ends others
  exact whole

theorem not_isWordChar_of_isBlank {c : Char} (isBlank : Text.isBlank c = true) :
    isWordChar c = false := by
  simp [isWordChar, isBlank]

theorem not_isWordChar_of_isQuote {c : Char} (isMark : isQuote c = true) :
    isWordChar c = false := by
  simp [isWordChar, isMark]

theorem ne_backslash_of_isQuote {mark : Char} (isMark : isQuote mark = true) : mark ≠ '\\' := by
  rintro rfl
  cases isMark

/-- Only a word goes on after a word. -/
theorem IsSpelled.endsWord {chars : List Char} {token : Token} (spelled : IsSpelled chars token)
    (noWord : token.isWord = false) (rest : List Char) : Scan.EndsWord (chars ++ rest) := by
  cases spelled with
  | opening | closing =>
      rintro c ⟨⟩
      decide
  | word => cases noWord
  | quoted isMark =>
      rintro c ⟨⟩
      exact not_isWordChar_of_isQuote isMark

theorem AreBlank.endsWord {blanks : List Char} (blank : AreBlank blanks) (nonempty : blanks ≠ [])
    (rest : List Char) : Scan.EndsWord (blanks ++ rest) := by
  obtain ⟨c, tail, rfl⟩ := List.exists_cons_of_ne_nil nonempty
  rintro d ⟨⟩
  exact not_isWordChar_of_isBlank (blank c List.mem_cons_self)

namespace Scan

/-! ### Written tokens are scanned -/

theorem run_blanks {blanks : List Char} (blank : AreBlank blanks) (rest : List Char)
    (position : Nat) :
    between.run position (blanks ++ rest) = between.run (position + blanks.length) rest := by
  induction blanks generalizing position with
  | nil => rfl
  | cons c tail ih =>
      obtain ⟨isBlank, others⟩ := List.forall_mem_cons.mp blank
      have skips : between.next position c = ([], .between) := by simp [next, enter, isBlank]
      rw [List.cons_append, run_cons_silent skips, ih others, List.length_cons, Nat.add_assoc,
        Nat.add_comm 1]

/-- A literal under way is complete at its last mark. -/
theorem run_enclosed {mark : Char} (isMark : isQuote mark = true) {chars content : List Char}
    (enclosed : IsEnclosed mark chars content) (start : Nat) (before rest : List Char)
    (position : Nat) :
    (Scan.literal mark start before).run position (chars ++ rest) =
      (between.run (position + chars.length) rest).map
        ([Token.quoted (String.ofList (before ++ content))] ++ ·) := by
  induction enclosed generalizing before position with
  | close =>
      have closes : (Scan.literal mark start before).next position mark =
          ([.quoted (String.ofList before)], .between) := by
        simp [next, ne_backslash_of_isQuote isMark]
      rw [List.singleton_append, run_cons closes, List.append_nil, List.length_singleton]
  | escaped c _ ih =>
      have slash : (Scan.literal mark start before).next position '\\' =
          ([], .escape mark start before) := rfl
      have char : (Scan.escape mark start before).next (position + 1) c =
          ([], .literal mark start (before ++ [c])) := rfl
      rw [List.cons_append, run_cons_silent slash, List.cons_append, run_cons_silent char, ih]
      simp only [List.append_assoc, List.singleton_append, List.length_cons, Nat.add_comm,
        Nat.add_left_comm]
  | @plain chars content c noMark noEscape _ ih =>
      have char : (Scan.literal mark start before).next position c =
          ([], .literal mark start (before ++ [c])) := by
        simp [next, noMark, noEscape]
      rw [List.cons_append, run_cons_silent char, ih]
      simp only [List.append_assoc, List.singleton_append, List.length_cons, Nat.add_assoc,
        Nat.add_comm 1]

/-- A mark opens a literal. -/
theorem next_of_isQuote {mark : Char} (isMark : isQuote mark = true) (position : Nat) :
    between.next position mark = ([], .literal mark position []) := by
  have kinds : mark = '"' ∨ mark = '\x27' := by simpa [isQuote] using isMark
  rcases kinds with rfl | rfl <;> rfl

theorem run_spelled {chars rest : List Char} {token : Token} (spelled : IsSpelled chars token)
    (ends : token.isWord = true → EndsWord rest) (position : Nat) :
    between.run position (chars ++ rest) =
      (between.run (position + chars.length) rest).map ([token] ++ ·) := by
  cases spelled with
  | opening => exact run_cons rfl rest
  | closing => exact run_cons rfl rest
  | word nonempty wordChars => exact reads_word nonempty wordChars position rest (ends rfl)
  | @quoted mark chars content isMark enclosed =>
      rw [List.cons_append, run_cons_silent (next_of_isQuote isMark position),
        run_enclosed isMark enclosed]
      simp only [List.nil_append, List.length_cons, Nat.add_assoc, Nat.add_comm 1]

theorem reads_of_lexes {chars : List Char} {tokens : List Token} (lexes : Lexes chars tokens) :
    Reads chars tokens := by
  induction lexes with
  | nil blank =>
      intro position rest _
      rw [run_blanks blank, map_nil_append]
  | cons blank spelled ends _ ih =>
      intro position rest restEnds
      rw [List.append_assoc, List.append_assoc, run_blanks blank,
        run_spelled spelled (fun isWord => (ends isWord).append restEnds), ih _ rest restEnds,
        map_append_map]
      simp only [List.singleton_append, List.length_append, Nat.add_assoc]

/-! ### Scanned tokens are written -/

/-- What characters must be so that the scanner completes tokens with them from a place on. -/
inductive Completes : Scan → List Char → List Token → Prop where
  | between {chars : List Char} {tokens : List Token} (lexes : Lexes chars tokens) :
      Completes .between chars tokens
  | word (before more : List Char) {rest : List Char} {tokens : List Token}
      (wordChars : ∀ c ∈ more, isWordChar c = true) (ends : EndsWord rest)
      (lexes : Lexes rest tokens) :
      Completes (.word before) (more ++ rest) (.word (String.ofList (before ++ more)) :: tokens)
  | literal (mark : Char) (start : Nat) (before : List Char) {enclosed content rest : List Char}
      {tokens : List Token} (isEnclosed : IsEnclosed mark enclosed content)
      (lexes : Lexes rest tokens) :
      Completes (.literal mark start before) (enclosed ++ rest)
        (.quoted (String.ofList (before ++ content)) :: tokens)
  | escape (mark : Char) (start : Nat) (before : List Char) (c : Char)
      {enclosed content rest : List Char} {tokens : List Token}
      (isEnclosed : IsEnclosed mark enclosed content) (lexes : Lexes rest tokens) :
      Completes (.escape mark start before) (c :: (enclosed ++ rest))
        (.quoted (String.ofList (before ++ c :: content)) :: tokens)

/-- A character outside words and literals is a blank or starts a token. -/
theorem Completes.enter {position : Nat} {c : Char} {rest : List Char} {tokens : List Token}
    (completes : Completes (enter position c).2 rest tokens) :
    Lexes (c :: rest) ((Scan.enter position c).1 ++ tokens) := by
  unfold Scan.enter at completes ⊢
  split at completes
  · rename_i isBlank
    cases completes with
    | between lexes =>
        rw [if_pos isBlank]
        exact lexes.blank isBlank
  rename_i noBlank
  rw [if_neg noBlank]
  split at completes
  · rename_i isOpening
    subst isOpening
    cases completes with
    | between lexes => exact .token .opening nofun lexes
  rename_i noOpening
  rw [if_neg noOpening]
  split at completes
  · rename_i isClosing
    subst isClosing
    cases completes with
    | between lexes => exact .token .closing nofun lexes
  rename_i noClosing
  rw [if_neg noClosing]
  split at completes
  · rename_i isMark
    rw [if_pos isMark]
    cases completes with
    | literal _ _ _ isEnclosed lexes => exact .token (.quoted isMark isEnclosed) nofun lexes
  · rename_i noMark
    rw [if_neg noMark]
    cases completes with
    | word _ more wordChars ends lexes =>
        have first : isWordChar c = true := by
          simp [isWordChar, noBlank, noOpening, noClosing, noMark]
        have spelled : IsSpelled (c :: more) (.word (String.ofList (c :: more))) :=
          .word (List.cons_ne_nil c more) (List.forall_mem_cons.mpr ⟨first, wordChars⟩)
        exact .token spelled (fun _ => ends) lexes

/-- What the scanner completes from a place on, one character earlier. -/
theorem Completes.next {place : Scan} {position : Nat} {c : Char} {rest : List Char}
    {tokens : List Token} (completes : Completes (place.next position c).2 rest tokens) :
    Completes place (c :: rest) ((place.next position c).1 ++ tokens) := by
  cases place with
  | between => exact .between completes.enter
  | word before =>
      simp only [Scan.next] at completes ⊢
      split at completes
      · rename_i wordChar
        rw [if_pos wordChar]
        cases completes with
        | word _ more wordChars ends lexes =>
            have longer := Completes.word before (c :: more)
              (List.forall_mem_cons.mpr ⟨wordChar, wordChars⟩) ends lexes
            simpa using longer
      · rename_i noWordChar
        rw [if_neg noWordChar]
        have ends : EndsWord (c :: rest) := by
          rintro d ⟨⟩
          exact Bool.not_eq_true _ ▸ noWordChar
        have whole := Completes.word before [] (List.forall_mem_nil _) ends completes.enter
        simpa using whole
  | literal mark start before =>
      simp only [Scan.next] at completes ⊢
      split at completes
      · rename_i isEscape
        subst isEscape
        cases completes with
        | escape _ _ _ d isEnclosed lexes =>
            exact .literal mark start before (.escaped d isEnclosed) lexes
      rename_i noEscape
      rw [if_neg noEscape]
      split at completes
      · rename_i isMark
        subst isMark
        rw [if_pos rfl]
        cases completes with
        | between lexes =>
            have whole := Completes.literal c start before .close lexes
            simpa using whole
      · rename_i noMark
        rw [if_neg noMark]
        cases completes with
        | literal _ _ _ isEnclosed lexes =>
            have longer := Completes.literal mark start before
              (.plain noMark noEscape isEnclosed) lexes
            simpa using longer
  | escape mark start before =>
      cases completes with
      | literal _ _ _ isEnclosed lexes =>
          have whole := Completes.escape mark start before c isEnclosed lexes
          simpa [Scan.next] using whole

theorem completes_of_finish {place : Scan} {tokens : List Token}
    (finished : place.finish = .ok tokens) : Completes place [] tokens := by
  cases place with
  | between =>
      cases finished
      exact .between (.nil (List.forall_mem_nil _))
  | word before =>
      cases finished
      have ends : EndsWord [] := nofun
      have whole := Completes.word before [] (List.forall_mem_nil _) ends (.nil (List.forall_mem_nil _))
      simpa using whole
  | literal | escape => cases finished

theorem completes_of_run (chars : List Char) {place : Scan} {position : Nat} {tokens : List Token}
    (completed : place.run position chars = .ok tokens) : Completes place chars tokens := by
  induction chars generalizing place position tokens with
  | nil => exact completes_of_finish completed
  | cons c rest ih =>
      rw [run, map_eq_ok_iff] at completed
      obtain ⟨later, laterOk, rfl⟩ := completed
      exact (ih laterOk).next

end Scan

theorem tokenize_eq_ok_iff {text : String} {tokens : List Token} :
    tokenize text = .ok tokens ↔ Lexes text.toList tokens := by
  constructor
  · intro tokenized
    cases Scan.completes_of_run _ tokenized with
    | between lexes => exact lexes
  · exact fun lexes => tokenize_of_reads (Scan.reads_of_lexes lexes)

/-! ## Flat lists -/

/-- The tokens of a list's arguments and its end, written after some token. -/
theorem exists_areArguments_of_lexes {arguments : List Token} {chars : List Char} {before : Token}
    (argumentsOnly : ∀ token ∈ arguments, token.isArgument = true)
    (ends : before.isWord = true → Scan.EndsWord chars)
    (lexes : Lexes chars (arguments ++ [.closing])) :
    ∃ written after trailing, chars = written ++ (after ++ ')' :: trailing) ∧
      AreArguments before written arguments ∧ AreBlank after ∧ AreBlank trailing := by
  induction arguments generalizing chars before with
  | nil =>
      cases lexes with
      | @cons after _ _ _ _ blank spelled _ others =>
          cases spelled
          cases others with
          | nil trailingBlank =>
              exact ⟨[], after, _, rfl, .nil before, blank, trailingBlank⟩
  | cons token rest ih =>
      obtain ⟨isArgument, restOnly⟩ := List.forall_mem_cons.mp argumentsOnly
      cases lexes with
      | @cons blanks spelling others _ _ blank spelled tokenEnds lexes =>
          obtain ⟨written, after, trailing, rfl, areArguments, afterBlank, trailingBlank⟩ :=
            ih restOnly tokenEnds lexes
          have apart : before.isWord = true → token.isWord = true → blanks ≠ [] := by
            rintro isWord tokenIsWord rfl
            cases spelled with
            | opening | closing | quoted => cases tokenIsWord
            | word nonempty wordChars =>
                obtain ⟨c, tail, rfl⟩ := List.exists_cons_of_ne_nil nonempty
                have stops := ends isWord c rfl
                rw [wordChars c List.mem_cons_self] at stops
                cases stops
          refine ⟨blanks ++ (spelling ++ written), after, trailing, by simp, ?_, afterBlank,
            trailingBlank⟩
          exact .cons blank apart isArgument spelled areArguments

/-- Written arguments and the end of their list are scanned, and no word before them goes on. -/
theorem AreArguments.lexes {arguments : List Token} {written : List Char} {before : Token}
    (areArguments : AreArguments before written arguments) {after trailing : List Char}
    (afterBlank : AreBlank after) (trailingBlank : AreBlank trailing) :
    (before.isWord = true → Scan.EndsWord (written ++ (after ++ ')' :: trailing))) ∧
      Lexes (written ++ (after ++ ')' :: trailing)) (arguments ++ [.closing]) := by
  induction areArguments with
  | nil before =>
      have closes : Lexes (after ++ ([')'] ++ trailing)) [.closing] :=
        .cons afterBlank .closing nofun (.nil trailingBlank)
      refine ⟨fun _ => ?_, closes⟩
      by_cases nonempty : after = []
      · rw [nonempty]
        exact IsSpelled.closing.endsWord rfl trailing
      · exact afterBlank.endsWord nonempty _
  | @cons before token blanks chars rest tokens blank apart _ spelled _ ih =>
      simp only [List.append_assoc]
      refine ⟨fun isWord => ?_, .cons blank spelled ih.1 ih.2⟩
      by_cases tokenIsWord : token.isWord = true
      · exact blank.endsWord (apart isWord tokenIsWord) _
      · rw [Bool.not_eq_true] at tokenIsWord
        by_cases nonempty : blanks = []
        · rw [nonempty]
          exact spelled.endsWord tokenIsWord _
        · exact blank.endsWord nonempty _

theorem AreArguments.isArgument {arguments : List Token} {written : List Char} {before : Token}
    (areArguments : AreArguments before written arguments) :
    ∀ token ∈ arguments, token.isArgument = true := by
  induction areArguments with
  | nil => nofun
  | cons _ _ isArgument _ _ ih => exact List.forall_mem_cons.mpr ⟨isArgument, ih⟩

theorem isStepText_of_lexes {chars : List Char} {name : String} {arguments : List Token}
    (argumentsOnly : ∀ token ∈ arguments, token.isArgument = true)
    (lexes : Lexes chars (.opening :: .word name :: (arguments ++ [.closing]))) :
    IsStepText chars name arguments := by
  cases lexes with
  | cons leadingBlank isOpening _ lexes =>
      cases isOpening
      cases lexes with
      | cons innerBlank spelled ends lexes =>
          cases spelled with
          | word nonempty wordChars =>
              obtain ⟨written, after, trailing, rfl, areArguments, afterBlank, trailingBlank⟩ :=
                exists_areArguments_of_lexes argumentsOnly ends lexes
              exact .list leadingBlank innerBlank nonempty wordChars areArguments afterBlank
                trailingBlank

theorem lexes_of_isStepText {chars : List Char} {name : String} {arguments : List Token}
    (isStep : IsStepText chars name arguments) :
    Lexes chars (.opening :: .word name :: (arguments ++ [.closing])) := by
  cases isStep with
  | list leadingBlank innerBlank nonempty wordChars areArguments afterBlank trailingBlank =>
      obtain ⟨ends, lexes⟩ := areArguments.lexes afterBlank trailingBlank
      exact .cons leadingBlank .opening nofun
        (.cons innerBlank (.word nonempty wordChars) (fun _ => ends rfl) lexes)

theorem IsStepText.isArgument {chars : List Char} {name : String} {arguments : List Token}
    (isStep : IsStepText chars name arguments) :
    ∀ token ∈ arguments, token.isArgument = true := by
  cases isStep with
  | list _ _ _ _ areArguments => exact areArguments.isArgument

theorem splitStep_eq_ok_iff {text name : String} {arguments : List Token} :
    splitStep text = .ok (name, arguments) ↔ IsStepText text.toList name arguments := by
  constructor
  · intro split
    obtain ⟨tokenized, argumentsOnly⟩ := tokenize_of_splitStep split
    exact isStepText_of_lexes argumentsOnly (tokenize_eq_ok_iff.mp tokenized)
  · intro isStep
    have tokenized := tokenize_eq_ok_iff.mpr (lexes_of_isStepText isStep)
    exact splitStep_of_tokenize tokenized isStep.isArgument

/-- A text is split into a name and arguments exactly if it is the text of a step with that name and
these arguments.  No text has two readings as a step, and a text without one is a fault. -/
theorem splitStep_exact (text : String) :
    (∀ name arguments, splitStep text = .ok (name, arguments) ↔
      IsStepText text.toList name arguments) ∧
    (∀ name arguments otherName others, IsStepText text.toList name arguments →
      IsStepText text.toList otherName others → otherName = name ∧ others = arguments) ∧
    ((∃ fault, splitStep text = .error fault) ↔
      ∀ name arguments, ¬IsStepText text.toList name arguments) := by
  refine ⟨fun _ _ => splitStep_eq_ok_iff, ?_, ?_⟩
  · intro name arguments otherName others isStep isOther
    have split := splitStep_eq_ok_iff.mpr isStep
    rw [splitStep_eq_ok_iff.mpr isOther] at split
    exact Prod.mk.inj (Except.ok.inj split)
  · constructor
    · rintro ⟨fault, failed⟩ name arguments isStep
      rw [splitStep_eq_ok_iff.mpr isStep] at failed
      cases failed
    · intro noStep
      cases split : splitStep text with
      | error fault => exact ⟨fault, rfl⟩
      | ok parts => exact absurd (splitStep_eq_ok_iff.mp split) (noStep parts.1 parts.2)

/-- Quoted literals may touch words, and hold marks of the other kind and parentheses. -/
example : (splitStep "(f a\"b')\"'\\'c' )").toOption =
    some ("f", [.word "a", .quoted "b')", .quoted "'c"]) := by
  decide +kernel

end SemanticQuery.Token
