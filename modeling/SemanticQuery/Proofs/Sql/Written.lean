import Mathlib.Data.List.Forall2
import SemanticQuery.Proofs.Sql.Fragments

/-!
# Written fragments

What two lists of fragments have in common when they are written with the same characters and bind
the same texts.  Equal beginnings are taken off: fixed text, names and constants between their
marks, placeholders, and words up to the first character that no word holds.
-/

namespace SemanticQuery.Sql

variable {dialect : Dialect} {position : Nat} {rest others : List Fragment}

/-- The characters of fragments; the next placeholder has the given position. -/
def written (dialect : Dialect) (position : Nat) (fragments : List Fragment) : List Char :=
  (renderFrom dialect position fragments).flatMap String.toList

@[simp]
theorem written_nil : written dialect position [] = [] := rfl

@[simp]
theorem written_text (text : String) :
    written dialect position (.text text :: rest) =
      text.toList ++ written dialect position rest := rfl

@[simp]
theorem written_name (name : String) :
    written dialect position (.name name :: rest) =
      (quoteName name).toList ++ written dialect position rest := rfl

@[simp]
theorem written_constant (text : String) :
    written dialect position (.constant text :: rest) =
      (quoteConstant text).toList ++ written dialect position rest := rfl

@[simp]
theorem written_bound (text : String) :
    written dialect position (.bound text :: rest) =
      (dialect.placeholder position).toList ++ written dialect (position + 1) rest := rfl

theorem written_append (dialect : Dialect) (position : Nat) (first second : List Fragment) :
    written dialect position (first ++ second) = written dialect position first ++
      written dialect (position + (boundTexts first).length) second := by
  simp only [written, renderFrom_append, List.flatMap_append]

theorem Select.toList_sql_emit (dialect : Dialect) (select : Select) :
    (select.emit dialect).sql.toList = written dialect 1 select.fragments := by
  simp [Select.emit_eq, written]

/-- Fragments that are written with the same characters and bind the same texts. -/
structure Alike (dialect : Dialect) (position : Nat) (first second : List Fragment) : Prop where
  chars : written dialect position first = written dialect position second
  texts : boundTexts first = boundTexts second

theorem Alike.symm {first second : List Fragment} (alike : Alike dialect position first second) :
    Alike dialect position second first :=
  ⟨alike.chars.symm, alike.texts.symm⟩

/-! ## Equal beginnings -/

/-- The same fixed text is taken off. -/
theorem Alike.of_text {text : String}
    (alike : Alike dialect position (.text text :: rest) (.text text :: others)) :
    Alike dialect position rest others :=
  ⟨List.append_cancel_left alike.chars, alike.texts⟩

theorem Alike.cons_text (text : String) (alike : Alike dialect position rest others) :
    Alike dialect position (.text text :: rest) (.text text :: others) :=
  ⟨congrArg (text.toList ++ ·) alike.chars, alike.texts⟩

theorem written_text_append (first second : String) :
    written dialect position (.text (first ++ second) :: rest) =
      written dialect position (.text first :: .text second :: rest) := by
  simp

/-- Fixed texts are divided. -/
theorem Alike.divide {first second one two : String}
    (alike : Alike dialect position (.text (first ++ second) :: rest)
      (.text (one ++ two) :: others)) :
    Alike dialect position (.text first :: .text second :: rest)
      (.text one :: .text two :: others) := by
  refine ⟨?_, alike.texts⟩
  rw [← written_text_append, ← written_text_append]
  exact alike.chars

/-- A common beginning of two fixed texts is taken off. -/
theorem Alike.of_append {text first second : String}
    (alike : Alike dialect position (.text (text ++ first) :: rest)
      (.text (text ++ second) :: others)) :
    Alike dialect position (.text first :: rest) (.text second :: others) :=
  alike.divide.of_text

/-- The same placeholder is taken off, and the texts that it stands for are equal. -/
theorem Alike.of_bound {first second : String}
    (alike : Alike dialect position (.bound first :: rest) (.bound second :: others)) :
    first = second ∧ Alike dialect (position + 1) rest others := by
  obtain ⟨same, texts⟩ := List.cons.inj alike.texts
  exact ⟨same, List.append_cancel_left alike.chars, texts⟩

def doubledChars (mark : Char) (chars : List Char) : List Char :=
  chars.flatMap fun c => if c = mark then [c, c] else [c]

theorem doubledChars_cons (mark c : Char) (chars : List Char) :
    doubledChars mark (c :: chars) =
      (if c = mark then [c, c] else [c]) ++ doubledChars mark chars := rfl

/-- A single mark ends a text in which all marks are doubled. -/
theorem eq_of_doubledChars_append {mark : Char} {first second tail tails : List Char}
    (firstEnds : tail.head? ≠ some mark) (secondEnds : tails.head? ≠ some mark)
    (same : doubledChars mark first ++ mark :: tail = doubledChars mark second ++ mark :: tails) :
    first = second ∧ tail = tails := by
  -- A mark that is not doubled can only be the one at the end.
  have ends {c : Char} {chars tail tails : List Char} (noMark : tail.head? ≠ some mark)
      (same : mark :: tail = doubledChars mark (c :: chars) ++ mark :: tails) : False := by
    rw [doubledChars_cons] at same
    split at same
    · rename_i isMark
      simp only [List.cons_append, List.nil_append, List.cons.injEq] at same
      rw [same.2, List.head?_cons, isMark] at noMark
      exact noMark rfl
    · rename_i other
      simp only [List.cons_append, List.nil_append, List.cons.injEq] at same
      exact other same.1.symm
  induction first generalizing second with
  | nil =>
      cases second with
      | nil => exact ⟨rfl, (List.cons.inj same).2⟩
      | cons d second => exact (ends firstEnds same).elim
  | cons c first ih =>
      cases second with
      | nil => exact (ends secondEnds same.symm).elim
      | cons d second =>
          have first_eq : c = d ∧ doubledChars mark first ++ mark :: tail =
              doubledChars mark second ++ mark :: tails := by
            rw [doubledChars_cons, doubledChars_cons] at same
            split at same <;> split at same <;> simp_all
          obtain ⟨rfl, later⟩ := first_eq
          obtain ⟨rfl, sameTail⟩ := ih later
          exact ⟨rfl, sameTail⟩

theorem toList_doubled (mark : Char) (text : String) :
    (doubled mark text).toList = mark :: (doubledChars mark text.toList ++ [mark]) :=
  String.toList_ofList

theorem eq_of_doubled_append {mark : Char} {first second : String} {tail tails : List Char}
    (firstEnds : tail.head? ≠ some mark) (secondEnds : tails.head? ≠ some mark)
    (same : (doubled mark first).toList ++ tail = (doubled mark second).toList ++ tails) :
    first = second ∧ tail = tails := by
  simp only [toList_doubled, List.cons_append, List.append_assoc, List.nil_append,
    List.cons.injEq, true_and] at same
  obtain ⟨sameText, sameTail⟩ := eq_of_doubledChars_append firstEnds secondEnds same
  exact ⟨String.toList_inj.mp sameText, sameTail⟩

/-- The same name is taken off where no mark of names follows it. -/
theorem Alike.of_name {first second : String}
    (firstEnds : (written dialect position rest).head? ≠ some '"')
    (secondEnds : (written dialect position others).head? ≠ some '"')
    (alike : Alike dialect position (.name first :: rest) (.name second :: others)) :
    first = second ∧ Alike dialect position rest others := by
  obtain ⟨same, tails⟩ := eq_of_doubled_append firstEnds secondEnds alike.chars
  exact ⟨same, tails, alike.texts⟩

/-- The same constant is taken off where no mark of constants follows it. -/
theorem Alike.of_constant {first second : String}
    (firstEnds : (written dialect position rest).head? ≠ some '\x27')
    (secondEnds : (written dialect position others).head? ≠ some '\x27')
    (alike : Alike dialect position (.constant first :: rest) (.constant second :: others)) :
    first = second ∧ Alike dialect position rest others := by
  obtain ⟨same, tails⟩ := eq_of_doubled_append firstEnds secondEnds alike.chars
  exact ⟨same, tails, alike.texts⟩

/-! ## Words -/

/-- The characters of names, numbers and operators that stand without quotes. -/
def isBareChar (c : Char) : Bool :=
  c.isAlphanum || c ∈ ['_', '.', '-', '+', '*', '/', '=', '<', '>', '|']

@[simp]
theorem isBareChar_space : isBareChar ' ' = false := rfl

@[simp]
theorem isBareChar_close : isBareChar ')' = false := rfl

def IsBare (chars : List Char) : Prop :=
  ∀ c ∈ chars, isBareChar c = true

instance (chars : List Char) : Decidable (IsBare chars) :=
  decidable_of_iff (chars.all isBareChar = true) List.all_eq_true

/-- The word at the beginning of a text, and the character after it. -/
def opening (chars : List Char) : List Char × Option Char :=
  (chars.takeWhile isBareChar, (chars.dropWhile isBareChar).head?)

theorem opening_append {word tail : List Char} (bare : IsBare word)
    (ends : ∀ c ∈ tail.head?, isBareChar c = false) : opening (word ++ tail) = (word, tail.head?) := by
  have none : tail.takeWhile isBareChar = [] ∧ tail.dropWhile isBareChar = tail := by
    cases tail with
    | nil => exact ⟨rfl, rfl⟩
    | cons c tail => simp [ends c rfl]
  rw [opening, List.takeWhile_append_of_pos bare, List.dropWhile_append_of_pos bare, none.1, none.2,
    List.append_nil]

theorem opening_of_head? {chars : List Char} (ends : ∀ c ∈ chars.head?, isBareChar c = false) :
    opening chars = ([], chars.head?) := by
  have empty : IsBare [] := nofun
  exact opening_append empty ends

/-- The same word is taken off where no bare character follows it. -/
theorem Alike.of_word {first second : String} (firstBare : IsBare first.toList)
    (secondBare : IsBare second.toList)
    (firstEnds : ∀ c ∈ (written dialect position rest).head?, isBareChar c = false)
    (secondEnds : ∀ c ∈ (written dialect position others).head?, isBareChar c = false)
    (alike : Alike dialect position (.text first :: rest) (.text second :: others)) :
    first = second ∧ Alike dialect position rest others := by
  have openings := congrArg opening alike.chars
  rw [written_text, written_text, opening_append firstBare firstEnds,
    opening_append secondBare secondEnds] at openings
  have same : first = second := String.toList_inj.mp (Prod.mk.inj openings).1
  subst same
  exact ⟨rfl, alike.of_text⟩

/-! ## Endings -/

def isEndChar (c : Char) : Bool :=
  c = ')' || c = ',' || c = ' '

/-- How an expression or an ordering goes on. -/
def continuations : List String :=
  [" WITHIN", " NULLS"]

/-- Whether a text can follow an expression or an ordering: it does not go on with either. -/
def endsText (chars : List Char) : Bool :=
  chars.head?.all isEndChar && continuations.all fun text => !text.toList.isPrefixOf chars

/-- Fragments that can follow an expression, wherever they are written. -/
def Ends (dialect : Dialect) (fragments : List Fragment) : Prop :=
  ∀ position, endsText (written dialect position fragments) = true

theorem isBareChar_of_isEndChar {c : Char} (isEnd : isEndChar c = true) : isBareChar c = false := by
  simp only [isEndChar, Bool.or_eq_true, decide_eq_true_eq] at isEnd
  rcases isEnd with (rfl | rfl) | rfl <;> rfl

namespace Ends

theorem nil : Ends dialect [] := fun _ => rfl

theorem isEndChar (ends : Ends dialect rest) (position : Nat) :
    ∀ c ∈ (written dialect position rest).head?, Sql.isEndChar c = true := by
  have first := (Bool.and_eq_true_iff.mp (ends position)).1
  rw [Option.all_eq_true] at first
  exact first

theorem isBareChar (ends : Ends dialect rest) (position : Nat) :
    ∀ c ∈ (written dialect position rest).head?, Sql.isBareChar c = false :=
  fun c first => isBareChar_of_isEndChar (ends.isEndChar position c first)

theorem not_continuation (ends : Ends dialect rest) (position : Nat) (text : String)
    (listed : text ∈ continuations) : ¬ text.toList <+: written dialect position rest := by
  have other := (Bool.and_eq_true_iff.mp (ends position)).2
  have notThis := List.all_eq_true.mp other text listed
  rw [← List.isPrefixOf_iff_prefix, Bool.not_eq_true]
  rwa [Bool.not_eq_true'] at notThis

/-- What can follow an expression does not begin with a mark. -/
theorem head?_ne (ends : Ends dialect rest) (position : Nat) {mark : Char}
    (other : Sql.isEndChar mark = false) : (written dialect position rest).head? ≠ some mark := by
  intro first
  have isEnd := ends.isEndChar position mark first
  rw [other] at isEnd
  cases isEnd

end Ends

def Closes (dialect : Dialect) (fragments : List Fragment) : Prop :=
  ∀ position, (written dialect position fragments).head? = some ')'

theorem Closes.ends (closes : Closes dialect rest) : Ends dialect rest := by
  intro position
  obtain ⟨tail, chars⟩ := List.head?_eq_some_iff.mp (closes position)
  rw [chars]
  rfl

/-! ## Items -/

section Items

variable {α : Type} {write : α → List Fragment} {valid : α → Prop} {agrees : α → α → Prop}
  {stops : List Fragment → Prop}

/-- An item that its writing tells: only an agreeing item can be written in the same way before
anything that stops it, and what follows is then written in the same way too. -/
def IsTold (dialect : Dialect) (stops : List Fragment → Prop) (write : α → List Fragment)
    (valid : α → Prop) (agrees : α → α → Prop) (item : α) : Prop :=
  ∀ ⦃other : α⦄ ⦃position : Nat⦄ ⦃rest others : List Fragment⦄, valid other → stops rest →
    stops others → Alike dialect position (write item ++ rest) (write other ++ others) →
    agrees item other ∧ ∃ next, Alike dialect next rest others

theorem joined_map_cons (separator : String) (write : α → List Fragment) (item : α)
    (items : List α) :
    joined separator ((item :: items).map write) =
      write item ++ items.flatMap fun item => .text separator :: write item := by
  rw [List.map_cons, joined_cons, List.flatMap_map]

def Breaks (dialect : Dialect) (separator : String) (fragments : List Fragment) : Prop :=
  ∀ position, ¬ separator.toList <+: written dialect position fragments

theorem breaks_of_head? (mark : Char) {separator : String} {fragments : List Fragment}
    (starts : separator.toList.head? = some mark)
    (other : ∀ position, (written dialect position fragments).head? ≠ some mark) :
    Breaks dialect separator fragments := by
  rintro position ⟨tail, whole⟩
  refine other position ?_
  rw [← whole, List.head?_append_of_ne_nil, starts]
  intro empty
  simp [empty] at starts

theorem Closes.breaks (closes : Closes dialect rest) (mark : Char) {separator : String}
    (starts : separator.toList.head? = some mark) (other : mark ≠ ')') :
    Breaks dialect separator rest := by
  refine breaks_of_head? mark starts fun position first => other ?_
  rw [closes position] at first
  exact (Option.some.inj first).symm

/-- What follows an item is the next separator or what stops all items. -/
theorem stops_separated {separator : String}
    (separates : ∀ fragments, stops (.text separator :: fragments)) (items : List α)
    (restStops : stops rest) :
    stops (items.flatMap (fun item => .text separator :: write item) ++ rest) := by
  cases items with
  | nil => exact restStops
  | cons item items => exact separates _

/-- Items that stand behind separators are told one after the other. -/
theorem forall₂_of_separated {separator : String}
    (separates : ∀ fragments, stops (.text separator :: fragments)) {items otherItems : List α}
    (told : ∀ item ∈ items, IsTold dialect stops write valid agrees item)
    (othersValid : ∀ item ∈ otherItems, valid item)
    (restStops : stops rest) (othersStop : stops others)
    (restBreaks : Breaks dialect separator rest) (othersBreak : Breaks dialect separator others)
    (alike : Alike dialect position
      (items.flatMap (fun item => .text separator :: write item) ++ rest)
      (otherItems.flatMap (fun item => .text separator :: write item) ++ others)) :
    List.Forall₂ agrees items otherItems ∧ ∃ next, Alike dialect next rest others := by
  induction items generalizing otherItems position with
  | nil =>
      cases otherItems with
      | nil => exact ⟨.nil, position, alike⟩
      | cons other otherItems =>
          refine (restBreaks position ?_).elim
          have chars := alike.chars
          simp only [List.flatMap_nil, List.nil_append, List.flatMap_cons, List.cons_append,
            written_text] at chars
          exact chars ▸ List.prefix_append _ _
  | cons item items ih =>
      cases otherItems with
      | nil =>
          refine (othersBreak position ?_).elim
          have chars := alike.chars
          simp only [List.flatMap_nil, List.nil_append, List.flatMap_cons, List.cons_append,
            written_text] at chars
          exact chars ▸ List.prefix_append _ _
      | cons other otherItems =>
          simp only [List.flatMap_cons, List.cons_append, List.append_assoc] at alike
          obtain ⟨agree, next, later⟩ := told item List.mem_cons_self
            (othersValid other List.mem_cons_self) (stops_separated separates _ restStops)
            (stops_separated separates _ othersStop) alike.of_text
          obtain ⟨agreeAll, tails⟩ := ih
            (fun item member => told item (List.mem_cons_of_mem _ member))
            (fun item member => othersValid item (List.mem_cons_of_mem _ member)) later
          exact ⟨.cons agree agreeAll, tails⟩

/-- Fragments whose first character, wherever they are written, is none that follows an
expression. -/
def Begins (dialect : Dialect) (fragments : List Fragment) : Prop :=
  ∀ position, ∃ c ∈ (written dialect position fragments).head?, isEndChar c = false

theorem Begins.not_alike {fragments : List Fragment} (begins : Begins dialect fragments)
    (ends : Ends dialect rest) : ¬ Alike dialect position fragments rest := by
  intro alike
  obtain ⟨c, first, other⟩ := begins position
  rw [alike.chars] at first
  rw [ends.isEndChar position c first] at other
  cases other

/-- Joined items are told one after the other. -/
theorem forall₂_of_joined {separator : String}
    (separates : ∀ fragments, Ends dialect (.text separator :: fragments))
    (begins : ∀ item, valid item → ∀ fragments, Ends dialect fragments →
      Begins dialect (write item ++ fragments))
    {items otherItems : List α}
    (told : ∀ item ∈ items, IsTold dialect (Ends dialect) write valid agrees item)
    (areValid : ∀ item ∈ items, valid item) (othersValid : ∀ item ∈ otherItems, valid item)
    (restEnds : Ends dialect rest) (othersEnd : Ends dialect others)
    (restBreaks : Breaks dialect separator rest) (othersBreak : Breaks dialect separator others)
    (alike : Alike dialect position (joined separator (items.map write) ++ rest)
      (joined separator (otherItems.map write) ++ others)) :
    List.Forall₂ agrees items otherItems ∧ ∃ next, Alike dialect next rest others := by
  -- Where there is an item, the text does not begin like what stops all items.
  have first {item : α} (isValid : valid item) (items : List α) {rest others : List Fragment}
      (restEnds : Ends dialect rest) (othersEnd : Ends dialect others) :
      ¬ Alike dialect position (joined separator ((item :: items).map write) ++ rest) others := by
    rw [joined_map_cons, List.append_assoc]
    exact (begins item isValid _ (stops_separated separates items restEnds)).not_alike othersEnd
  cases items with
  | nil =>
      cases otherItems with
      | nil => exact ⟨.nil, position, alike⟩
      | cons other otherItems =>
          exact (first (othersValid other List.mem_cons_self) _ othersEnd restEnds alike.symm).elim
  | cons item items =>
      cases otherItems with
      | nil =>
          exact (first (areValid item List.mem_cons_self) _ restEnds othersEnd alike).elim
      | cons other otherItems =>
          -- Behind one more separator both are items behind separators.
          have behind := alike.cons_text separator
          rw [joined_map_cons, joined_map_cons, ← List.cons_append, ← List.cons_append,
            ← List.cons_append, ← List.cons_append] at behind
          exact forall₂_of_separated separates told othersValid restEnds othersEnd restBreaks
            othersBreak behind

end Items

end SemanticQuery.Sql
