import Mathlib.Data.List.Chain
import Mathlib.Data.List.Nodup
import SemanticQuery.Operation.Descriptor
import SemanticQuery.Plan.Describe
import SemanticQuery.Plan.Parse
import SemanticQuery.Proofs.Outcome
import SemanticQuery.Proofs.Text.Replacement

/-!
# Filling templates

The marks of a template are replaced one after the other, also in the descriptions that were put in
before.  In the templates of operations every mark stands apart, so filling goes through a template piece
by piece, and each description shows with the marks of the later ones filled in it.  All descriptions show
as they are if none of them holds the mark of a later one.  Where there are two of them, this is needed as
well, unless the second one is that mark itself.
-/

namespace SemanticQuery

namespace TemplatePiece

def isPlain : TemplatePiece → Bool
  | .text words => !words.toList.contains '\x7b'
  | .slot _ | .target => true

/-- Of two pieces in a row one consists of plain words, and if it is the second one, they begin with a
space. -/
def areSpaced : TemplatePiece → TemplatePiece → Bool
  | .text words, _ => isPlain (.text words)
  | _, .text words => words.toList.head? = some ' '
  | _, _ => false

end TemplatePiece

namespace Template

/-- The marks of a template stand apart, and each of them stands once. -/
structure IsSpaced (template : Template) : Prop where
  plain : ∀ piece ∈ template, piece.isPlain = true
  apart : template.IsChain fun piece next => piece.areSpaced next = true
  once : template.Nodup

theorem isSpaced_template (operation : Operation) : operation.descriptor.template.IsSpaced := by
  cases operation <;> exact ⟨by decide +kernel, by decide +kernel, by decide +kernel⟩

/-! ## Marks -/

/-- A mark is written in braces, and neither braces nor spaces stand between them. -/
def IsMark (mark : String) : Prop :=
  ∃ body : List Char, mark.toList = '\x7b' :: (body ++ ['\x7d']) ∧
    ∀ c ∈ body, c ≠ '\x7b' ∧ c ≠ '\x7d' ∧ c ≠ ' '

theorem isDigit_of_mem_repr {index : Nat} {c : Char} (member : c ∈ index.repr.toList) :
    c.isDigit = true := by
  rw [Nat.toList_repr] at member
  exact Nat.isDigit_of_mem_toDigits (by decide) (by decide) member

theorem isMark_slotMark (index : Nat) : IsMark (slotMark index) := by
  refine ⟨index.repr.toList, by simp [slotMark], fun c member => ?_⟩
  have digit := isDigit_of_mem_repr member
  refine ⟨?_, ?_, ?_⟩ <;> rintro rfl <;> exact absurd digit (by decide)

theorem isMark_targetMark : IsMark targetMark :=
  ⟨['t', 'a', 'r', 'g', 'e', 't'], by decide +kernel, by simp⟩

theorem slotMark_injective {first second : Nat} (same : slotMark first = slotMark second) :
    first = second := by
  have chars := congrArg String.toList same
  simp only [slotMark, String.toList_append, List.append_assoc, List.append_cancel_left_eq,
    List.append_cancel_right_eq, Nat.toList_repr] at chars
  have numbers := congrArg (Nat.ofDigitChars 10 · 0) chars
  rwa [Nat.ofDigitChars_ten_toDigits, Nat.ofDigitChars_ten_toDigits] at numbers

theorem slotMark_ne_targetMark (index : Nat) : slotMark index ≠ targetMark := by
  intro same
  have held : 't' ∈ (slotMark index).toList := by
    rw [same]
    decide +kernel
  have inNumber : 't' ∈ index.repr.toList := by simpa [slotMark] using held
  exact absurd (isDigit_of_mem_repr inNumber) (by decide)

/-- A mark occurs in another one only if they are the same. -/
theorem IsMark.not_occurs {mark other : String} (isMark : IsMark mark) (isOther : IsMark other)
    (differs : mark ≠ other) : ¬Text.Occurs mark other := by
  obtain ⟨body, markChars, -⟩ := isMark
  obtain ⟨otherBody, otherChars, otherInner⟩ := isOther
  rintro ⟨before, after, whole⟩
  rw [markChars, otherChars] at whole
  -- Only the first character of the other mark is an opening brace, and only the last one is a closing
  -- brace.
  cases before with
  | cons c before =>
      have tails := (List.cons.inj whole).2
      have opening : '\x7b' ∈ otherBody ++ ['\x7d'] := by
        rw [← tails]
        simp
      have inBody : '\x7b' ∈ otherBody := by simpa using opening
      exact (otherInner _ inBody).1 rfl
  | nil =>
      have tails : body ++ '\x7d' :: after = otherBody ++ ['\x7d'] := by simpa using whole
      rcases List.eq_nil_or_concat after with rfl | ⟨front, last, rfl⟩
      · have bodies := List.append_cancel_right tails
        exact differs (String.toList_inj.mp (by rw [markChars, otherChars, bodies]))
      · have longer : (body ++ '\x7d' :: front) ++ [last] = otherBody ++ ['\x7d'] := by
          simpa using tails
        have inBody : '\x7d' ∈ otherBody := by
          rw [← (List.append_inj' longer rfl).1]
          simp
        exact (otherInner _ inBody).2.1 rfl

variable {mark : String} {template : Template}

theorem IsMark.replace_self (isMark : IsMark mark) (description : String) :
    Text.replace mark description mark = description := by
  obtain ⟨body, chars, -⟩ := isMark
  rw [← String.toList_inj, Text.toList_replace, chars]
  have replaced : Text.replaceFrom ('\x7b' :: (body ++ ['\x7d'])) description.toList 0
      ('\x7b' :: (body ++ ['\x7d']) ++ []) = description.toList ++ [] :=
    Text.replaceFrom_pattern_append []
  rwa [List.append_nil, List.append_nil] at replaced

theorem IsMark.replace_of_ne {other : String} (isMark : IsMark mark) (isOther : IsMark other)
    (differs : mark ≠ other) (description : String) :
    Text.replace mark description other = other :=
  Text.replace_of_not_occurs (isMark.not_occurs isOther differs) description

/-! ## Pieces that stand apart -/

/-- No mark goes over the end of the first text into the second one. -/
def StandApart (first second : String) : Prop :=
  '\x7b' ∉ first.toList ∨ second.toList.head? = some ' '

/-- Texts that stand apart are searched one by one. -/
theorem IsMark.replace_join (isMark : IsMark mark) (description : String) {texts : List String}
    (apart : texts.IsChain StandApart) :
    Text.replace mark description (String.join texts) =
      String.join (texts.map (Text.replace mark description)) := by
  obtain ⟨body, chars, inner⟩ := isMark
  induction texts with
  | nil => rfl
  | cons text rest ih =>
      have later := ih apart.tail
      rw [← String.toList_inj, Text.toList_replace] at later ⊢
      simp only [String.join_cons, List.map_cons, String.toList_append, Text.toList_replace] at later ⊢
      rw [← later, chars]
      cases rest with
      | nil => simp [Text.replaceFrom]
      | cons next rest =>
          rcases (List.isChain_cons_cons.mp apart).1 with noBrace | space
          · rw [Text.replaceFrom_append_of_not_mem noBrace, Text.replaceFrom_of_not_mem noBrace]
          · have noMark : ' ' ∉ body ++ ['\x7d'] := by
              simpa using fun member => (inner ' ' member).2.2 rfl
            refine Text.replaceFrom_append (fun c isFirst => ?_) _ (Nat.zero_le _)
            have isSpace : c = ' ' := by
              rw [String.join_cons, String.toList_append, List.head?_append, space] at isFirst
              exact (Option.some.inj isFirst).symm
            rwa [isSpace]

/-! ## Templates with texts in their slots -/

/-- A piece with a text in its place; words stay. -/
def shownPiece (held : TemplatePiece → String) : TemplatePiece → String
  | .text words => words
  | piece => held piece

@[simp] theorem shownPiece_text (held : TemplatePiece → String) (words : String) :
    shownPiece held (.text words) = words := rfl

def shown (held : TemplatePiece → String) (template : Template) : String :=
  String.join (template.map (shownPiece held))

theorem text_eq_shown (template : Template) : template.text = template.shown pieceText := by
  have pieces : pieceText = shownPiece pieceText := by
    funext piece
    cases piece <;> rfl
  rw [text, shown, ← pieces]

theorem instantiate_eq_shown (template : Template) (target : String) (descriptions : List String) :
    template.instantiate target descriptions =
      template.shown (instantiatePiece target descriptions) := by
  have pieces : instantiatePiece target descriptions =
      shownPiece (instantiatePiece target descriptions) := by
    funext piece
    cases piece <;> rfl
  rw [instantiate, shown, ← pieces]

variable {held other : TemplatePiece → String}

theorem shown_congr (slots : ∀ index, held (.slot index) = other (.slot index))
    (targets : held .target = other .target) : template.shown held = template.shown other := by
  have pieces : shownPiece held = shownPiece other := by
    funext piece
    cases piece with
    | text words => rfl
    | slot index => exact slots index
    | target => exact targets
  rw [shown, shown, pieces]

theorem standApart_shownPiece {piece next : TemplatePiece} (spaced : piece.areSpaced next = true)
    (held : TemplatePiece → String) : StandApart (shownPiece held piece) (shownPiece held next) := by
  cases piece with
  | text words =>
      left
      simpa [TemplatePiece.areSpaced, TemplatePiece.isPlain] using spaced
  | slot | target =>
      right
      cases next with
      | text words => simpa [TemplatePiece.areSpaced] using spaced
      | slot | target => simp [TemplatePiece.areSpaced] at spaced

theorem IsMark.replace_words (isMark : IsMark mark) {words : String}
    (plain : (TemplatePiece.text words).isPlain = true) (description : String) :
    Text.replace mark description words = words := by
  obtain ⟨body, chars, -⟩ := isMark
  have absent : '\x7b' ∉ words.toList := by simpa [TemplatePiece.isPlain] using plain
  rw [← String.toList_inj, Text.toList_replace, chars, Text.replaceFrom_of_not_mem absent]

/-- A mark is replaced in each slot by itself. -/
theorem IsSpaced.replace_shown (spaced : template.IsSpaced) (isMark : IsMark mark)
    (description : String) (held : TemplatePiece → String) :
    Text.replace mark description (template.shown held) =
      template.shown fun piece => Text.replace mark description (held piece) := by
  have apart : (template.map (shownPiece held)).IsChain StandApart :=
    (List.isChain_map _).mpr (spaced.apart.imp fun _ _ follows => standApart_shownPiece follows held)
  rw [shown, isMark.replace_join description apart, List.map_map, shown]
  congr 1
  refine List.map_congr_left fun piece member => ?_
  cases piece with
  | text words => exact isMark.replace_words (spaced.plain _ member) description
  | slot | target => rfl

/-! ## Filling one slot after the other -/

/-- Filling goes through a template piece by piece. -/
theorem IsSpaced.fillFrom_shown (spaced : template.IsSpaced) (held : TemplatePiece → String)
    (index : Nat) (descriptions : List String) :
    fillFrom (template.shown held) index descriptions =
      template.shown fun piece => fillFrom (held piece) index descriptions := by
  induction descriptions generalizing held index with
  | nil => rfl
  | cons description rest ih =>
      rw [fillFrom, spaced.replace_shown (isMark_slotMark index), ih]
      rfl

/-- The descriptions from an index on, each with the marks of the later ones filled in it. -/
def settledFrom : Nat → List String → List String
  | _, [] => []
  | index, description :: rest =>
      fillFrom description (index + 1) rest :: settledFrom (index + 1) rest

def settled (descriptions : List String) : List String :=
  settledFrom 0 descriptions

/-- The mark of a slot gives way to its description, and later marks to theirs in it. -/
theorem fillFrom_slotMark {index slot : Nat} (reached : index ≤ slot) (descriptions : List String) :
    fillFrom (slotMark slot) index descriptions =
      (settledFrom index descriptions)[slot - index]?.getD (slotMark slot) := by
  induction descriptions generalizing index with
  | nil => rfl
  | cons description rest ih =>
      rcases Nat.eq_or_lt_of_le reached with rfl | later
      · rw [fillFrom, (isMark_slotMark index).replace_self, settledFrom, Nat.sub_self]
        rfl
      · have differs : slotMark index ≠ slotMark slot := fun same =>
          Nat.ne_of_lt later (slotMark_injective same)
        have position : slot - index = slot - (index + 1) + 1 := by omega
        rw [fillFrom, (isMark_slotMark index).replace_of_ne (isMark_slotMark slot) differs, ih later,
          settledFrom, position, List.getElem?_cons_succ]

theorem fill_targetMark (descriptions : List String) : fill targetMark descriptions = targetMark := by
  have kept (index : Nat) : fillFrom targetMark index descriptions = targetMark := by
    induction descriptions generalizing index with
    | nil => rfl
    | cons description rest ih =>
        rw [fillFrom, (isMark_slotMark index).replace_of_ne isMark_targetMark
          (slotMark_ne_targetMark index), ih]
  exact kept 0

/-- With the target put in first, its marks are filled as well. -/
theorem IsSpaced.fill_aim (spaced : template.IsSpaced) (target : String)
    (descriptions : List String) :
    fill (aim template.text target) descriptions =
      template.instantiate (fill target descriptions) (settled descriptions) := by
  rw [aim, text_eq_shown, spaced.replace_shown isMark_targetMark, fill, spaced.fillFrom_shown,
    instantiate_eq_shown]
  refine shown_congr (fun index => ?_) ?_
  · have differs := (slotMark_ne_targetMark index).symm
    rw [pieceText, isMark_targetMark.replace_of_ne (isMark_slotMark index) differs,
      fillFrom_slotMark (Nat.zero_le index)]
    rfl
  · rw [pieceText, isMark_targetMark.replace_self]
    rfl

/-- Each description shows with the marks of the later ones filled in it. -/
theorem IsSpaced.fill_text (spaced : template.IsSpaced) (descriptions : List String) :
    fill template.text descriptions = template.instantiate targetMark (settled descriptions) := by
  have aimed : aim template.text targetMark = template.text := by
    have nonempty : targetMark ≠ "" := by decide
    exact (Text.replace_eq_self_iff nonempty).mpr (.inr rfl)
  have filled := spaced.fill_aim targetMark descriptions
  rwa [aimed, fill_targetMark] at filled

/-! ## Descriptions that show as they are -/

def HoldsNoMark (text : String) (index : Nat) (descriptions : List String) : Prop :=
  ∀ item ∈ descriptions.zipIdx index, ¬Text.Occurs (slotMark item.2) text

instance (text : String) (index : Nat) (descriptions : List String) :
    Decidable (HoldsNoMark text index descriptions) :=
  inferInstanceAs (Decidable (∀ item ∈ descriptions.zipIdx index, _))

/-- No description from an index on holds the mark of a later one. -/
def AreClear : Nat → List String → Prop
  | _, [] => True
  | index, description :: rest =>
      HoldsNoMark description (index + 1) rest ∧ AreClear (index + 1) rest

theorem fillFrom_of_holdsNoMark {text : String} {index : Nat} {descriptions : List String}
    (noMark : HoldsNoMark text index descriptions) : fillFrom text index descriptions = text := by
  induction descriptions generalizing index with
  | nil => rfl
  | cons description rest ih =>
      rw [HoldsNoMark, List.zipIdx_cons, List.forall_mem_cons] at noMark
      rw [fillFrom, Text.replace_of_not_occurs noMark.1, ih noMark.2]

theorem settledFrom_of_areClear {index : Nat} {descriptions : List String}
    (clear : AreClear index descriptions) : settledFrom index descriptions = descriptions := by
  induction descriptions generalizing index with
  | nil => rfl
  | cons description rest ih =>
      rw [settledFrom, fillFrom_of_holdsNoMark clear.1, ih clear.2]

theorem shown_append (front back : Template) (held : TemplatePiece → String) :
    shown held (front ++ back) = front.shown held ++ back.shown held := by
  rw [shown, List.map_append, String.join_append]
  rfl

/-- A template tells the text that is put into it at a place of its own. -/
theorem shown_eq_shown_iff (once : template.Nodup) (piece : TemplatePiece)
    (noWords : ∀ words, piece ≠ .text words)
    (same : ∀ next, next ≠ piece → held next = other next) :
    template.shown held = template.shown other ↔ piece ∉ template ∨ held piece = other piece := by
  have kept (part : Template) (absent : piece ∉ part) : part.shown held = part.shown other := by
    refine congrArg String.join (List.map_congr_left fun next member => ?_)
    cases next with
    | text words => rfl
    | slot | target => exact same _ fun isPiece => absent (isPiece ▸ member)
  by_cases member : piece ∈ template
  · obtain ⟨front, back, rfl⟩ := List.append_of_mem member
    have absent : piece ∉ front ++ back := (List.nodup_cons.mp (List.nodup_middle.mp once)).1
    rw [List.mem_append, not_or] at absent
    have around (texts : TemplatePiece → String) : shown texts (front ++ piece :: back) =
        shown texts front ++ texts piece ++ shown texts back := by
      have middle : shown texts (piece :: back) = texts piece ++ shown texts back := by
        cases piece with
        | text words => exact absurd rfl (noWords words)
        | slot | target => exact String.join_cons
      rw [shown_append, middle, String.append_assoc]
    rw [around, around, kept front absent.1, kept back absent.2, ← String.toList_inj]
    simp only [String.toList_append, List.append_cancel_right_eq, List.append_cancel_left_eq,
      String.toList_inj, member, not_true_eq_false, false_or]
  · exact iff_of_true (kept template member) (.inl member)

/-- Of two descriptions, only the first one can change. -/
theorem IsSpaced.fill_text_eq_iff (spaced : template.IsSpaced) (first second : String) :
    fill template.text [first, second] = template.instantiate targetMark [first, second] ↔
      .slot 0 ∉ template ∨ ¬Text.Occurs (slotMark 1) first ∨ second = slotMark 1 := by
  have nonempty : slotMark 1 ≠ "" := by decide +kernel
  have kept : fillFrom first 1 [second] = first ↔
      ¬Text.Occurs (slotMark 1) first ∨ second = slotMark 1 := Text.replace_eq_self_iff nonempty
  rw [spaced.fill_text, instantiate_eq_shown, instantiate_eq_shown,
    shown_eq_shown_iff spaced.once (.slot 0) nofun, ← kept]
  · rfl
  · intro next differs
    cases next with
    | text words => rfl
    | target => rfl
    | slot index =>
        cases index with
        | zero => exact absurd rfl differs
        | succ index => cases index <;> rfl

/-- With one description, only the target can change. -/
theorem IsSpaced.fill_aim_eq_iff (spaced : template.IsSpaced) (target description : String) :
    fill (aim template.text target) [description] = template.instantiate target [description] ↔
      .target ∉ template ∨ ¬Text.Occurs (slotMark 0) target ∨ description = slotMark 0 := by
  have nonempty : slotMark 0 ≠ "" := by decide +kernel
  have kept : fill target [description] = target ↔
      ¬Text.Occurs (slotMark 0) target ∨ description = slotMark 0 := Text.replace_eq_self_iff nonempty
  rw [spaced.fill_aim, instantiate_eq_shown, instantiate_eq_shown,
    shown_eq_shown_iff spaced.once .target nofun, ← kept]
  · rfl
  · intro next differs
    cases next with
    | text words => rfl
    | target => exact absurd rfl differs
    | slot index => rfl

end Template

open Template

/--
Filling the template of an operation puts all descriptions in at once, each of them with the marks of the
later ones filled in it, and the target with the marks of all descriptions filled in it.  So everything
shows as it is if no description holds the mark of a later one and the target holds no mark of a
description.  Of two descriptions, the first one shows as it is exactly if it does not hold the mark of the
second one, or the second one is that mark itself; and so does a target with one description.
-/
theorem fill_template_exact (operation : Operation) (target : String) (descriptions : List String) :
    fill operation.descriptor.template.text descriptions =
        operation.descriptor.template.instantiate targetMark (settled descriptions) ∧
      fill (aim operation.descriptor.template.text target) descriptions =
        operation.descriptor.template.instantiate (fill target descriptions) (settled descriptions) ∧
      (AreClear 0 descriptions →
        fill operation.descriptor.template.text descriptions =
            operation.descriptor.template.instantiate targetMark descriptions ∧
          (HoldsNoMark target 0 descriptions →
            fill (aim operation.descriptor.template.text target) descriptions =
              operation.descriptor.template.instantiate target descriptions)) ∧
      (∀ first second, fill operation.descriptor.template.text [first, second] =
          operation.descriptor.template.instantiate targetMark [first, second] ↔
        .slot 0 ∉ operation.descriptor.template ∨ ¬Text.Occurs (slotMark 1) first ∨
          second = slotMark 1) ∧
      ∀ description, fill (aim operation.descriptor.template.text target) [description] =
          operation.descriptor.template.instantiate target [description] ↔
        .target ∉ operation.descriptor.template ∨ ¬Text.Occurs (slotMark 0) target ∨
          description = slotMark 0 := by
  have spaced := isSpaced_template operation
  refine ⟨spaced.fill_text descriptions, spaced.fill_aim target descriptions, fun clear => ?_,
    spaced.fill_text_eq_iff, spaced.fill_aim_eq_iff target⟩
  have unchanged : settled descriptions = descriptions := settledFrom_of_areClear clear
  refine ⟨?_, fun noMark => ?_⟩
  · rw [spaced.fill_text, unchanged]
  · have kept : fill target descriptions = target := fillFrom_of_holdsNoMark noMark
    rw [spaced.fill_aim, kept, unchanged]

/-- Marks of other slots in a description, and marks of slots that come before its own one, show as they
are. -/
theorem fill_template_exact_otherMarks :
    (AreClear 0 [slotMark 2 ++ " of " ++ slotMark 0, slotMark 0] ∧
      fill Operation.equals.descriptor.template.text
          [slotMark 2 ++ " of " ++ slotMark 0, slotMark 0] =
        slotMark 2 ++ " of " ++ slotMark 0 ++ " is " ++ slotMark 0) ∧
    AreClear 0 [slotMark 1] ∧ HoldsNoMark (slotMark 1) 0 [slotMark 1] ∧
      fill (aim Operation.average.descriptor.template.text (slotMark 1)) [slotMark 1] =
        "average of " ++ slotMark 1 := by
  have comparedClear : AreClear 0 [slotMark 2 ++ " of " ++ slotMark 0, slotMark 0] :=
    ⟨by decide +kernel, nofun, trivial⟩
  have averagedClear : AreClear 0 [slotMark 1] := ⟨nofun, trivial⟩
  have noMark : HoldsNoMark (slotMark 1) 0 [slotMark 1] := by decide +kernel
  have compared := fill_template_exact .equals "" [slotMark 2 ++ " of " ++ slotMark 0, slotMark 0]
  have averaged := fill_template_exact .average (slotMark 1) [slotMark 1]
  refine ⟨⟨comparedClear, ?_⟩, averagedClear, noMark, ?_⟩
  · rw [(compared.2.2.1 comparedClear).1]
    decide +kernel
  · rw [(averaged.2.2.1 averagedClear).2 noMark]
    decide +kernel

def bracedSteps : Entries String String :=
  [("|1|", "(retrieve_entity Person)"), ("|2|", "(retrieve_attribute |1| age)"),
    ("|3|", "(exact \"\x7b1\x7d\" |2|)"), ("|4|", "(add |2| \"\x7b0\x7d\")"),
    ("|5|", "(average |4|)"), ("|6|", "(collect |5|)"), ("|7|", "(return |6| |3|)")]

/-- Literals of a plan are filled as if they were marks: in the first argument of a comparison, and in
what an average is about. -/
theorem exists_literal_filled :
    ∃ plan, Plan.parse bracedSteps = .ok plan ∧
      (∃ step ∈ plan.steps, step.operation = .equals ∧
        step.operation.descriptor.template.instantiate targetMark [slotMark 1, "age of Person"] =
          slotMark 1 ++ " is age of Person" ∧
        plan.describeStep step = "age of Person is age of Person") ∧
      ∃ step ∈ plan.steps, step.operation = .average ∧
        step.operation.descriptor.template.instantiate ("age of Person plus " ++ slotMark 0)
            ["age of Person plus " ++ slotMark 0] =
          "average of age of Person plus " ++ slotMark 0 ∧
        plan.describeStep step =
          "average of age of Person plus age of Person plus " ++ slotMark 0 := by
  have runs : (Plan.parse bracedSteps).map (fun plan => decide (
      (∃ step ∈ plan.steps, step.operation = .equals ∧
        step.operation.descriptor.template.instantiate targetMark [slotMark 1, "age of Person"] =
          slotMark 1 ++ " is age of Person" ∧
        plan.describeStep step = "age of Person is age of Person") ∧
      ∃ step ∈ plan.steps, step.operation = .average ∧
        step.operation.descriptor.template.instantiate ("age of Person plus " ++ slotMark 0)
            ["age of Person plus " ++ slotMark 0] =
          "average of age of Person plus " ++ slotMark 0 ∧
        plan.describeStep step =
          "average of age of Person plus age of Person plus " ++ slotMark 0)) = .ok true := by
    decide +kernel
  obtain ⟨plan, parsed, tested⟩ := map_eq_ok_iff.mp runs
  exact ⟨plan, parsed, of_decide_eq_true tested⟩

end SemanticQuery
