import SemanticQuery.Proofs.Sql.Written

/-!
# Values in SQL text

A value that is no text is written as one word, and the word tells the value: integers are digits
with a possible sign, floating point numbers hold a point, an exponent or letters of their own, and
the words of other values hold no digit.  Floating point numbers are compared by their text.
-/

namespace SemanticQuery.Sql

/-- Values that are equal; floating point numbers are compared by their text. -/
def ValueAgrees : Value → Value → Prop
  | .float first, .float second => Layout.sql.text first = Layout.sql.text second
  | first, second => first = second

/-! ## Integers -/

theorem isBareChar_of_isDigit {c : Char} (digit : c.isDigit = true) : isBareChar c = true := by
  simp [isBareChar, Char.isAlphanum, digit]

theorem isDigit_of_mem_toDigits {n : Nat} {c : Char} (member : c ∈ Nat.toDigits 10 n) :
    c.isDigit = true :=
  Nat.isDigit_of_mem_toDigits (by decide) (by decide) member

def HasNoDigit (chars : List Char) : Prop :=
  ∀ c ∈ chars, c.isDigit = false

instance (chars : List Char) : Decidable (HasNoDigit chars) :=
  decidable_of_iff (chars.all (!·.isDigit) = true) (by simp [HasNoDigit])

theorem exists_isDigit_toDigits (n : Nat) : ∃ c ∈ Nat.toDigits 10 n, c.isDigit = true := by
  obtain ⟨c, member⟩ := List.exists_mem_of_ne_nil _ (Nat.toDigits_ne_nil (n := n) (b := 10))
  exact ⟨c, member, isDigit_of_mem_toDigits member⟩

theorem toDigits_injective {m n : Nat} (same : Nat.toDigits 10 m = Nat.toDigits 10 n) : m = n := by
  have numbers := congrArg (Nat.ofDigitChars 10 · 0) same
  rwa [Nat.ofDigitChars_ten_toDigits, Nat.ofDigitChars_ten_toDigits] at numbers

theorem toList_repr_ofNat (n : Nat) : (Int.ofNat n).repr.toList = Nat.toDigits 10 n :=
  Nat.toList_repr

theorem toList_repr_negSucc (n : Nat) :
    (Int.negSucc n).repr.toList = '-' :: Nat.toDigits 10 (n + 1) := by
  rw [Int.repr, String.toList_append, Nat.toList_repr]
  rfl

/-- The characters of an integer: digits, after a possible sign. -/
theorem mem_repr_cases {value : Int} {c : Char} (member : c ∈ value.repr.toList) :
    c.isDigit = true ∨ c = '-' := by
  cases value with
  | ofNat n =>
      rw [toList_repr_ofNat] at member
      exact .inl (isDigit_of_mem_toDigits member)
  | negSucc n =>
      rw [toList_repr_negSucc, List.mem_cons] at member
      exact member.symm.imp_left isDigit_of_mem_toDigits

theorem exists_isDigit_repr (value : Int) : ∃ c ∈ value.repr.toList, c.isDigit = true := by
  cases value with
  | ofNat n =>
      rw [toList_repr_ofNat]
      exact exists_isDigit_toDigits n
  | negSucc n =>
      obtain ⟨c, member, digit⟩ := exists_isDigit_toDigits (n + 1)
      rw [toList_repr_negSucc]
      exact ⟨c, List.mem_cons_of_mem _ member, digit⟩

/-- The text of an integer tells the integer. -/
theorem repr_injective {first second : Int} (same : first.repr = second.repr) : first = second := by
  -- Only a negative integer begins with a sign.
  have unsigned {m : Nat} {chars : List Char} (signed : Nat.toDigits 10 m = '-' :: chars) :
      False := by
    have digit := isDigit_of_mem_toDigits (signed ▸ List.mem_cons_self)
    exact absurd digit (by decide)
  have chars := congrArg String.toList same
  cases first <;> cases second <;> simp only [toList_repr_ofNat, toList_repr_negSucc] at chars
  case ofNat.ofNat => exact congrArg Int.ofNat (toDigits_injective chars)
  case ofNat.negSucc => exact (unsigned chars).elim
  case negSucc.ofNat => exact (unsigned chars.symm).elim
  case negSucc.negSucc =>
    have digits := (List.cons.inj chars).2
    exact congrArg Int.negSucc (Nat.succ.inj (toDigits_injective digits))

/-! ## Floating point numbers -/

/-- The characters of a number that is no integer: digits, points, exponent marks and signs, with
a digit and a point or an exponent mark among them. -/
structure IsFraction (chars : List Char) : Prop where
  cases : ∀ c ∈ chars, c.isDigit = true ∨ c = '.' ∨ c = 'e' ∨ c = '-'
  digit : ∃ c ∈ chars, c.isDigit = true
  mark : '.' ∈ chars ∨ 'e' ∈ chars

theorem IsFraction.cons_sign {chars : List Char} (fraction : IsFraction chars) :
    IsFraction ('-' :: chars) where
  cases := by
    intro c member
    rcases List.mem_cons.mp member with rfl | later
    · simp
    · exact fraction.cases c later
  digit := by
    obtain ⟨c, member, digit⟩ := fraction.digit
    exact ⟨c, List.mem_cons_of_mem _ member, digit⟩
  mark := fraction.mark.imp (List.mem_cons_of_mem _) (List.mem_cons_of_mem _)

theorem isFraction_positionalText {digits : List Char} (nonempty : digits ≠ [])
    (areDigits : ∀ c ∈ digits, c.isDigit = true) (exponent : Int) :
    IsFraction (Layout.positionalText true digits exponent) := by
  obtain ⟨first, member⟩ := List.exists_mem_of_ne_nil _ nonempty
  have zero {c : Char} {count : Nat} (isZero : c ∈ List.replicate count '0') :
      c.isDigit = true := by
    rw [List.eq_of_mem_replicate isZero]
    rfl
  unfold Layout.positionalText
  dsimp only
  split
  · refine ⟨?_, ⟨first, by simp [member], areDigits first member⟩, by simp⟩
    intro c among
    simp only [if_true, List.mem_append, List.mem_cons, List.not_mem_nil, or_false] at among
    rcases among with (isDigit | isZero) | rfl | rfl
    · exact .inl (areDigits c isDigit)
    · exact .inl (zero isZero)
    · simp
    · exact .inl rfl
  · split
    · refine ⟨?_, ?_, by simp⟩
      · intro c among
        simp only [List.mem_append, List.mem_cons] at among
        rcases among with before | rfl | after
        · exact .inl (areDigits c (List.mem_of_mem_take before))
        · simp
        · exact .inl (areDigits c (List.mem_of_mem_drop after))
      · refine ⟨first, ?_, areDigits first member⟩
        rw [← List.take_append_drop (digits.length - (-exponent).toNat) digits,
          List.mem_append] at member
        simp only [List.mem_append, List.mem_cons]
        exact member.imp_right .inr
    · refine ⟨?_, ⟨'0', by simp, rfl⟩, by simp⟩
      intro c among
      simp only [List.mem_cons, List.mem_append] at among
      rcases among with rfl | rfl | isZero | isDigit
      · exact .inl rfl
      · simp
      · exact .inl (zero isZero)
      · exact .inl (areDigits c isDigit)

theorem isFraction_scientificText {digits : List Char} (nonempty : digits ≠ [])
    (areDigits : ∀ c ∈ digits, c.isDigit = true) (order : Int) :
    IsFraction (Layout.scientificText digits order) := by
  unfold Layout.scientificText
  refine ⟨?_, ?_, by simp⟩
  · intro c among
    simp only [List.mem_append, List.mem_cons] at among
    rcases among with (first | fraction) | rfl | exponent
    · exact .inl (areDigits c (List.mem_of_mem_take first))
    · split at fraction
      · cases fraction
      · rcases List.mem_cons.mp fraction with rfl | later
        · simp
        · exact .inl (areDigits c (List.mem_of_mem_drop later))
    · simp
    · exact (mem_repr_cases exponent).imp_right fun sign => .inr (.inr sign)
  · cases digits with
    | nil => exact absurd rfl nonempty
    | cons first rest => exact ⟨first, by simp, areDigits first List.mem_cons_self⟩

theorem isFraction_finiteText (decimal : Decimal) : IsFraction (Layout.sql.finiteText decimal) := by
  have nonempty : Nat.toDigits 10 decimal.digits ≠ [] := Nat.toDigits_ne_nil
  have areDigits : ∀ c ∈ Nat.toDigits 10 decimal.digits, c.isDigit = true :=
    fun _ member => isDigit_of_mem_toDigits member
  have laidOut (isPositional : Bool) (exponent order : Int) :
      IsFraction (if isPositional then
        Layout.positionalText true (Nat.toDigits 10 decimal.digits) exponent
      else Layout.scientificText (Nat.toDigits 10 decimal.digits) order) := by
    cases isPositional with
    | true => exact isFraction_positionalText nonempty areDigits exponent
    | false => exact isFraction_scientificText nonempty areDigits order
  exact laidOut _ _ _

/-- A floating point number is written as a fraction, or it is infinite or no number. -/
theorem toList_text_cases (x : Binary64) :
    (Layout.sql.text x).toList ∈ ["NaN".toList, "inf".toList, "-inf".toList] ∨
      IsFraction (Layout.sql.text x).toList := by
  unfold Layout.text
  split
  · simp
  · simp only [String.toList_ofList]
    split <;> split
    · simp
    · exact .inr (isFraction_finiteText _).cons_sign
    · simp
    · exact .inr (isFraction_finiteText _)

/-! ## Words -/

/-- The words of values that hold no digit. -/
def wordsOfValues : List (List Char) :=
  ["NULL".toList, "TRUE".toList, "FALSE".toList, "NaN".toList, "inf".toList, "-inf".toList]

structure IsValueWord (word : String) : Prop where
  bare : IsBare word.toList
  /-- A word with no digit is one of a few. -/
  known : (∃ c ∈ word.toList, c.isDigit = true) ∨ word.toList ∈ wordsOfValues

theorem isValueWord_of_mem {word : String} (member : word.toList ∈ wordsOfValues) :
    IsValueWord word := by
  have bare : ∀ word ∈ wordsOfValues, IsBare word := by decide
  exact ⟨bare _ member, .inr member⟩

theorem isValueWord_of_valueFragment {value : Value} {word : String}
    (isWord : valueFragment value = .text word) : IsValueWord word := by
  cases value with
  | null =>
      cases isWord
      exact isValueWord_of_mem (by decide)
  | boolean value =>
      cases value <;> cases isWord <;> exact isValueWord_of_mem (by decide)
  | integer value =>
      cases isWord
      refine ⟨?_, .inl (exists_isDigit_repr value)⟩
      intro c member
      rcases mem_repr_cases member with digit | rfl
      · exact isBareChar_of_isDigit digit
      · rfl
  | float value =>
      cases isWord
      rcases toList_text_cases value with special | fraction
      · refine isValueWord_of_mem ?_
        have known : ["NaN".toList, "inf".toList, "-inf".toList] ⊆ wordsOfValues := by decide
        exact known special
      · refine ⟨?_, .inl fraction.digit⟩
        intro c member
        rcases fraction.cases c member with digit | rfl | rfl | rfl
        · exact isBareChar_of_isDigit digit
        · rfl
        · rfl
        · rfl
  | text value => cases isWord

theorem IsValueWord.ne_nil {word : String} (isWord : IsValueWord word) : word.toList ≠ [] := by
  rcases isWord.known with ⟨c, member, -⟩ | member
  · exact List.ne_nil_of_mem member
  · intro empty
    rw [empty] at member
    exact absurd member (by decide)

/-- A word of letters other than those of values is no value. -/
theorem not_isValueWord {word : String} (letters : HasNoDigit word.toList)
    (unknown : word.toList ∉ wordsOfValues) : ¬ IsValueWord word := by
  intro isWord
  rcases isWord.known with ⟨c, member, digit⟩ | member
  · rw [letters c member] at digit
    cases digit
  · exact unknown member

/-- An integer and a floating point number are written differently. -/
theorem repr_ne_text (first : Int) (second : Binary64) : first.repr ≠ Layout.sql.text second := by
  intro same
  have mark {c : Char} (among : c ∈ (Layout.sql.text second).toList) :
      c.isDigit = true ∨ c = '-' := by
    rw [← same] at among
    exact mem_repr_cases among
  rcases toList_text_cases second with special | fraction
  · obtain ⟨c, member, digit⟩ := exists_isDigit_repr first
    rw [same] at member
    have letters : ∀ word ∈ ["NaN".toList, "inf".toList, "-inf".toList], HasNoDigit word := by
      decide
    rw [letters _ special c member] at digit
    cases digit
  · rcases fraction.mark with point | exponent
    · exact absurd (mark point) (by decide)
    · exact absurd (mark exponent) (by decide)

/-- A number is not written like a truth value or null. -/
theorem text_ne_of_isDigit {word : String} {value : Binary64}
    (letters : HasNoDigit word.toList)
    (unknown : word.toList ∉ ["NaN".toList, "inf".toList, "-inf".toList]) :
    word ≠ Layout.sql.text value := by
  rintro rfl
  rcases toList_text_cases value with special | fraction
  · exact unknown special
  · obtain ⟨c, member, digit⟩ := fraction.digit
    rw [letters c member] at digit
    cases digit

theorem repr_ne_of_isDigit {word : String} {value : Int}
    (letters : HasNoDigit word.toList) : word ≠ value.repr := by
  rintro rfl
  obtain ⟨c, member, digit⟩ := exists_isDigit_repr value
  rw [letters c member] at digit
  cases digit

/-- The word of a value tells the value. -/
theorem valueAgrees_of_valueFragment {first second : Value} {word : String}
    (firstWord : valueFragment first = .text word)
    (secondWord : valueFragment second = .text word) : ValueAgrees first second := by
  have same := firstWord.trans secondWord.symm
  cases first <;> cases second <;>
    simp only [valueFragment, Fragment.text.injEq, reduceCtorEq] at same firstWord secondWord
  case null.null => rfl
  case null.boolean value => cases value <;> simp at same
  case null.integer => exact absurd same (repr_ne_of_isDigit (by decide))
  case null.float => exact absurd same (text_ne_of_isDigit (by decide) (by decide))
  case boolean.null value => cases value <;> simp at same
  case boolean.boolean one two =>
    cases one <;> cases two
    · rfl
    · exact absurd same (by decide)
    · exact absurd same (by decide)
    · rfl
  case boolean.integer value other =>
    cases value <;> exact absurd same (repr_ne_of_isDigit (by decide))
  case boolean.float value other =>
    cases value <;> exact absurd same (text_ne_of_isDigit (by decide) (by decide))
  case integer.null => exact absurd same.symm (repr_ne_of_isDigit (by decide))
  case integer.boolean value other =>
    cases other <;> exact absurd same.symm (repr_ne_of_isDigit (by decide))
  case integer.integer => exact congrArg Value.integer (repr_injective same)
  case integer.float => exact absurd same (repr_ne_text _ _)
  case float.null => exact absurd same.symm (text_ne_of_isDigit (by decide) (by decide))
  case float.boolean value other =>
    cases other <;> exact absurd same.symm (text_ne_of_isDigit (by decide) (by decide))
  case float.integer => exact absurd same.symm (repr_ne_text _ _)
  case float.float => exact same

end SemanticQuery.Sql
