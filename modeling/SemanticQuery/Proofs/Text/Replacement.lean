import Mathlib.Data.List.Infix
import SemanticQuery.Text.Search

/-!
# Replacing text

Replacing goes through a text part by part wherever no occurrence goes over the end of a part: where the
part holds no first character of the pattern, or where the next part begins with a character that stands
nowhere else in the pattern.  A text stays as it is exactly if the pattern does not occur in it or is
replaced by itself.
-/

namespace SemanticQuery.Text

def Occurs (pattern text : String) : Prop :=
  pattern.toList <:+: text.toList

instance (pattern text : String) : Decidable (Occurs pattern text) :=
  inferInstanceAs (Decidable (pattern.toList <:+: text.toList))

variable {first : Char} {others pattern replacement : List Char}

/-! ## Parts of a text -/

/-- The rest of an occurrence is passed over. -/
theorem replaceFrom_append_length (pattern replacement passed rest : List Char) :
    replaceFrom pattern replacement passed.length (passed ++ rest) =
      replaceFrom pattern replacement 0 rest := by
  induction passed with
  | nil => rfl
  | cons c tail ih => exact ih

/-- An occurrence at the front is replaced. -/
theorem replaceFrom_pattern_append (rest : List Char) :
    replaceFrom (first :: others) replacement 0 (first :: others ++ rest) =
      replacement ++ replaceFrom (first :: others) replacement 0 rest := by
  have begins : (first :: others).isPrefixOf (first :: (others ++ rest)) = true :=
    List.isPrefixOf_iff_prefix.mpr ⟨rest, rfl⟩
  have passes := replaceFrom_append_length (first :: others) replacement others rest
  rw [List.cons_append, replaceFrom, if_pos begins, List.length_cons, Nat.add_sub_cancel, passes]

/-- Characters among which no occurrence starts are kept. -/
theorem replaceFrom_append_of_not_mem {before : List Char} (absent : first ∉ before)
    (after : List Char) :
    replaceFrom (first :: others) replacement 0 (before ++ after) =
      before ++ replaceFrom (first :: others) replacement 0 after := by
  induction before with
  | nil => rfl
  | cons c tail ih =>
      rw [List.mem_cons, not_or] at absent
      obtain ⟨differs, later⟩ := absent
      have noStart : ¬(first :: others).isPrefixOf (c :: (tail ++ after)) = true := by
        simp [List.isPrefixOf, differs]
      rw [List.cons_append, replaceFrom, if_neg noStart, ih later, List.cons_append]

theorem replaceFrom_of_not_mem {text : List Char} (absent : first ∉ text) :
    replaceFrom (first :: others) replacement 0 text = text := by
  have kept : replaceFrom (first :: others) replacement 0 (text ++ []) = text ++ [] :=
    replaceFrom_append_of_not_mem absent []
  rwa [List.append_nil] at kept

/-- An occurrence that starts before a cut ends before it, if the first character after the cut stands
in the pattern at most at its start. -/
theorem prefix_append_iff_of_apart {c : Char} {tail after : List Char}
    (apart : ∀ d ∈ after.head?, d ∉ others) :
    first :: others <+: c :: (tail ++ after) ↔ first :: others <+: c :: tail := by
  constructor
  · intro begins
    have whole : c :: tail <+: c :: (tail ++ after) := ⟨after, rfl⟩
    rcases List.prefix_or_prefix_of_prefix begins whole with inside | beyond
    · exact inside
    · obtain ⟨more, longer⟩ := beyond
      cases more with
      | nil => rw [← longer, List.append_nil]
      | cons d more =>
          rw [← longer] at begins
          obtain ⟨rest, split⟩ := begins
          have continues : after = d :: (more ++ rest) := by simpa using split.symm
          have inPattern : others = tail ++ d :: more := (List.cons.inj longer).2.symm
          have first : d ∈ after.head? := by simp [continues]
          exact absurd (by simp [inPattern]) (apart d first)
  · intro begins
    exact begins.trans ⟨after, rfl⟩

/-- Parts are searched one by one where no occurrence goes over the cut between them. -/
theorem replaceFrom_append {after : List Char} (apart : ∀ d ∈ after.head?, d ∉ others)
    (before : List Char) {skip : Nat} (inside : skip ≤ before.length) :
    replaceFrom (first :: others) replacement skip (before ++ after) =
      replaceFrom (first :: others) replacement skip before ++
        replaceFrom (first :: others) replacement 0 after := by
  induction before generalizing skip with
  | nil =>
      obtain rfl : skip = 0 := Nat.le_zero.mp inside
      rfl
  | cons c tail ih =>
      cases skip with
      | succ skip => exact ih (Nat.le_of_succ_le_succ inside)
      | zero =>
          have same : first :: others <+: c :: (tail ++ after) ↔ first :: others <+: c :: tail :=
            prefix_append_iff_of_apart apart
          simp only [List.cons_append, replaceFrom, List.isPrefixOf_iff_prefix, same]
          split
          · rename_i begins
            have fits : (first :: others).length - 1 ≤ tail.length := by
              have shorter := begins.length_le
              simp only [List.length_cons] at shorter ⊢
              omega
            rw [ih fits, List.append_assoc]
          · rw [ih (Nat.zero_le _), List.cons_append]

/-! ## Texts that stay as they are -/

theorem replaceFrom_of_not_infix {text : List Char} (absent : ¬pattern <:+: text) :
    replaceFrom pattern replacement 0 text = text := by
  induction text with
  | nil => rfl
  | cons c tail ih =>
      have noStart : ¬pattern.isPrefixOf (c :: tail) = true := fun begins =>
        absent (List.isPrefixOf_iff_prefix.mp begins).isInfix
      have later : ¬pattern <:+: tail := fun occurs => absent (List.infix_cons occurs)
      rw [replaceFrom, if_neg noStart, ih later]

/-- The first occurrence of a pattern is the first one that is replaced. -/
theorem exists_first_occurrence (replacement : List Char) {text : List Char}
    (occurs : first :: others <:+: text) :
    ∃ before after, text = before ++ (first :: others ++ after) ∧
      replaceFrom (first :: others) replacement 0 text =
        before ++ (replacement ++ replaceFrom (first :: others) replacement 0 after) := by
  induction text with
  | nil => exact absurd (List.infix_nil.mp occurs) (List.cons_ne_nil _ _)
  | cons c tail ih =>
      by_cases begins : first :: others <+: c :: tail
      · obtain ⟨after, split⟩ := begins
        refine ⟨[], after, split.symm, ?_⟩
        rw [← split, replaceFrom_pattern_append]
        rfl
      · have later : first :: others <:+: tail := (List.infix_cons_iff.mp occurs).resolve_left begins
        obtain ⟨before, after, split, replaced⟩ := ih later
        have noStart : ¬(first :: others).isPrefixOf (c :: tail) = true :=
          List.isPrefixOf_iff_prefix.not.mpr begins
        refine ⟨c :: before, after, congrArg (c :: ·) split, ?_⟩
        rw [replaceFrom, if_neg noStart, replaced, List.cons_append]

theorem replaceFrom_self (nonempty : pattern ≠ []) (skip : Nat) (text : List Char) :
    replaceFrom pattern pattern skip text = text.drop skip := by
  fun_induction replaceFrom pattern pattern skip text with
  | case1 => simp
  | case2 skip _ rest ih => exact ih
  | case3 c rest begins ih =>
      obtain ⟨length, size⟩ := Nat.exists_eq_add_one.mpr (List.length_pos_iff.mpr nonempty)
      have split := List.prefix_iff_eq_append.mp (List.isPrefixOf_iff_prefix.mp begins)
      rw [size, List.drop_succ_cons] at split
      rw [ih, size, Nat.add_sub_cancel, split, List.drop_zero]
  | case4 c rest _ ih => rw [ih, List.drop_zero, List.drop_zero]

/-- Each replaced occurrence changes the length in the same way. -/
theorem exists_length_replaceFrom (replacement : List Char) (nonempty : pattern ≠ []) (skip : Nat)
    (text : List Char) :
    ∃ count, (replaceFrom pattern replacement skip text).length + count * pattern.length =
      text.length - skip + count * replacement.length := by
  fun_induction replaceFrom pattern replacement skip text with
  | case1 => exact ⟨0, by simp⟩
  | case2 skip _ rest ih => simpa using ih
  | case3 c rest begins ih =>
      obtain ⟨count, lengths⟩ := ih
      have fits := (List.isPrefixOf_iff_prefix.mp begins).length_le
      have positive := List.length_pos_iff.mpr nonempty
      refine ⟨count + 1, ?_⟩
      rw [List.length_append, Nat.succ_mul, Nat.succ_mul]
      rw [List.length_cons] at fits ⊢
      omega
  | case4 c rest _ ih =>
      obtain ⟨count, lengths⟩ := ih
      refine ⟨count, ?_⟩
      rw [List.length_cons, List.length_cons]
      omega

theorem eq_of_replaceFrom_eq {text : List Char} (occurs : first :: others <:+: text)
    (same : replaceFrom (first :: others) replacement 0 text = text) :
    replacement = first :: others := by
  obtain ⟨before, after, split, replaced⟩ := exists_first_occurrence replacement occurs
  have tails : replacement ++ replaceFrom (first :: others) replacement 0 after =
      first :: others ++ after := by
    have whole := replaced.symm.trans (same.trans split)
    exact List.append_cancel_left whole
  obtain ⟨count, lengths⟩ :=
    exists_length_replaceFrom replacement (List.cons_ne_nil first others) 0 after
  have total := congrArg List.length tails
  rw [List.length_append, List.length_append] at total
  -- The first occurrence and the later ones all change the length by the same amount.
  have scaled : (count + 1) * replacement.length = (count + 1) * (first :: others).length := by
    rw [Nat.succ_mul, Nat.succ_mul]
    omega
  have equalLength := Nat.eq_of_mul_eq_mul_left (Nat.succ_pos count) scaled
  exact (List.append_inj tails equalLength).1

/-! ## Replacing in strings -/

@[simp] theorem toList_replace (pattern replacement text : String) :
    (replace pattern replacement text).toList =
      replaceFrom pattern.toList replacement.toList 0 text.toList :=
  String.toList_ofList

theorem replace_of_not_occurs {pattern text : String} (absent : ¬Occurs pattern text)
    (replacement : String) : replace pattern replacement text = text := by
  rw [← String.toList_inj, toList_replace]
  exact replaceFrom_of_not_infix absent

/-- A text stays as it is if the pattern does not occur or is replaced by itself, and only then. -/
theorem replace_eq_self_iff {pattern replacement text : String} (nonempty : pattern ≠ "") :
    replace pattern replacement text = text ↔ ¬Occurs pattern text ∨ replacement = pattern := by
  have nonemptyChars : pattern.toList ≠ [] := String.toList_eq_nil_iff.not.mpr nonempty
  constructor
  · intro same
    rw [or_iff_not_imp_left, not_not]
    intro occurs
    obtain ⟨first, others, chars⟩ := List.exists_cons_of_ne_nil nonemptyChars
    rw [← String.toList_inj, toList_replace] at same
    rw [Occurs] at occurs
    rw [chars] at same occurs
    rw [← String.toList_inj, chars]
    exact eq_of_replaceFrom_eq occurs same
  · rintro (absent | rfl)
    · exact replace_of_not_occurs absent replacement
    · rw [← String.toList_inj, toList_replace, replaceFrom_self nonemptyChars, List.drop_zero]

end SemanticQuery.Text
