import SemanticQuery.Proofs.Draft.Failures
import SemanticQuery.Proofs.Draft.Records

/-!
# The numbers of limits

A limit is accepted if it is an integer of 64 bits that is not negative, and is read again, without a
sign but a plus, as a natural number of 64 bits.  Both readings give the same number, except for a zero
with a minus sign in front, which is accepted and cannot be read again.
-/

namespace SemanticQuery

namespace Number

variable {text : String} {count : Nat}

def IsMinusZero (text : String) : Prop :=
  ∃ rest, text.toList = '-' :: rest ∧ nat? rest = some 0

/-- No natural number starts with a minus sign. -/
theorem nat?_minus (rest : List Char) : nat? ('-' :: rest) = none := by
  have noDigit : digit? '-' = none := by decide
  simp [nat?, digits, noDigit]

theorem nat64?_minus {rest : List Char} (starts : text.toList = '-' :: rest) :
    nat64? text = none := by
  simp [nat64?, starts, nat?_minus]

theorem IsMinusZero.nat64?_eq_none (isMinusZero : IsMinusZero text) : nat64? text = none := by
  obtain ⟨rest, starts, -⟩ := isMinusZero
  exact nat64?_minus starts

/-- Without a minus sign, both readings differ in their bounds only. -/
theorem bind_signed_eq_some_iff {read : Option Nat} {bound : Int} {top : Nat}
    (below : bound ≤ top) :
    (read.bind fun value =>
        if -bound ≤ signed false value ∧ signed false value < bound then
          some (signed false value) else none) = some (count : Int) ↔
      (count : Int) < bound ∧
        (read.bind fun value => if value < top then some value else none) = some count := by
  cases read with
  | none => simp
  | some value =>
      simp only [Option.bind_some, signed, Bool.false_eq_true, if_false,
        Option.ite_none_right_eq_some, Option.some.injEq]
      omega

/-- With a minus sign, only zero is not negative. -/
theorem bind_negated_eq_some_iff {read : Option Nat} {bound : Int} (positive : 0 < bound) :
    (read.bind fun value =>
        if -bound ≤ signed true value ∧ signed true value < bound then
          some (signed true value) else none) = some (count : Int) ↔
      count = 0 ∧ read = some 0 := by
  cases read with
  | none => simp
  | some value =>
      simp only [Option.bind_some, signed, if_true, Option.ite_none_right_eq_some,
        Option.some.injEq]
      omega

theorem int64Bound_pos : 0 < int64Bound := by
  decide

theorem int64Bound_le : int64Bound ≤ (nat64Bound : Int) := by
  unfold int64Bound nat64Bound
  omega

/-- An integer that is not negative is read where the same natural number is, if it is not too great,
and as a zero with a minus sign. -/
theorem int64?_eq_natCast_iff :
    int64? text = some (count : Int) ↔
      (count : Int) < int64Bound ∧ nat64? text = some count ∨ count = 0 ∧ IsMinusZero text := by
  have noMinus (other : ∀ rest, text.toList ≠ '-' :: rest) : ¬IsMinusZero text := by
    rintro ⟨rest, starts, -⟩
    exact other rest starts
  unfold int64? sign
  split
  · rename_i rest starts
    have isMinusZero : IsMinusZero text ↔ nat? rest = some 0 := by
      simp [IsMinusZero, starts]
    rw [bind_negated_eq_some_iff int64Bound_pos, nat64?_minus starts, isMinusZero]
    simp
  · rename_i rest starts
    have other := noMinus (by simp [starts])
    have plus : nat64? text = (nat? rest).bind fun value =>
        if value < nat64Bound then some value else none := by
      simp [nat64?, starts]
    rw [bind_signed_eq_some_iff int64Bound_le, plus]
    simp [other]
  · rename_i noMinusSign noPlus
    have other := noMinus noMinusSign
    have plain : nat64? text = (nat? text.toList).bind fun value =>
        if value < nat64Bound then some value else none := by
      unfold nat64?
      split
      · rename_i rest starts
        exact absurd starts (noPlus rest)
      · rfl
    rw [bind_signed_eq_some_iff int64Bound_le, plain]
    simp [other]

end Number

namespace Step

variable {step : Step}

/-- An argument that passes the check of a limit is a word that is read as an integer. -/
theorem exists_of_isNatural {literal : Literal} (natural : isNatural (.literal literal) = true) :
    ∃ word, ∃ count : Nat, literal = .bare word ∧ Number.int64? word = some (count : Int) := by
  unfold isNatural at natural
  split at natural
  · rename_i value isInteger
    rw [Argument.literal?, Option.map_some, Option.some.injEq] at isInteger
    cases literal with
    | quoted text => cases isInteger
    | bare word =>
        rw [Literal.toValue, Value.ofWord] at isInteger
        split at isInteger
        · rename_i read
          cases isInteger
          refine ⟨word, value.toNat, rfl, ?_⟩
          rw [read, Int.toNat_of_nonneg (of_decide_eq_true natural)]
        · split at isInteger
          · split at isInteger <;> cases isInteger
          · cases isInteger
  · cases natural

/-- The argument of a limit that was accepted. -/
theorem IsCanonical.exists_limit (canonical : step.IsCanonical) (operation : step.operation = .limit) :
    ∃ word, ∃ count : Nat, step.arguments = [.literal (.bare word)] ∧
      Number.int64? word = some (count : Int) := by
  have shape := canonical.shape
  have form := canonical.hasForm
  rw [operation] at form
  rw [checkShape, operation] at shape
  dsimp only at shape
  split at shape
  · rename_i natural
    generalize step.arguments = arguments at form natural ⊢
    cases form with
    | listing impossible | applied impossible => cases impossible
    | limit literal =>
        obtain ⟨word, count, rfl, read⟩ := exists_of_isNatural natural
        exact ⟨word, count, rfl, read⟩
  · cases shape

/-- The number of an accepted limit, as it was checked and as it is read again. -/
theorem IsCanonical.reads_limit (canonical : step.IsCanonical) (operation : step.operation = .limit) :
    ∃ literal, ∃ count : Nat, step.arguments = [.literal literal] ∧
      literal.toValue = .integer count ∧
      (¬Number.IsMinusZero (Draft.firstContent step) → step.limit? = some count) ∧
      (Number.IsMinusZero (Draft.firstContent step) → count = 0 ∧ step.limit? = none) := by
  obtain ⟨word, count, arguments, read⟩ := canonical.exists_limit operation
  have content : Draft.firstContent step = word := by
    rw [Draft.firstContent, arguments]
    rfl
  have limit : step.limit? = Number.nat64? word := by
    rw [Step.limit?, if_pos operation, content]
  rw [content, limit]
  refine ⟨.bare word, count, arguments, by simp [Literal.toValue, Value.ofWord, read], ?_, ?_⟩
  · intro noMinusZero
    rcases Number.int64?_eq_natCast_iff.mp read with ⟨-, same⟩ | ⟨-, isMinusZero⟩
    · exact same
    · exact absurd isMinusZero noMinusZero
  · intro isMinusZero
    have unread := isMinusZero.nat64?_eq_none
    rcases Number.int64?_eq_natCast_iff.mp read with ⟨-, same⟩ | ⟨zero, -⟩
    · rw [unread] at same
      cases same
    · exact ⟨zero, unread⟩

end Step

/-- Every step of a plan that was read passed the checks. -/
theorem Plan.isCanonical_of_mem {raw : Entries String String} {plan : Plan}
    (parsed : parse raw = .ok plan) {step : Step} (member : step ∈ plan.steps) :
    step.IsCanonical := by
  obtain ⟨steps, read, -, formed⟩ := parse_eq_ok_iff.mp parsed
  obtain ⟨canonical, -⟩ := areParsed_of_parseSteps read
  obtain rfl := (isFormed_of_ofSteps formed).steps_eq
  exact canonical step member

/-- The number of a limit that was accepted is read again as it was checked, unless it is written as a
zero with a minus sign.  So drafting a plan reports a broken invariant only for such a zero, and a plan
that has one is never drafted. -/
theorem limits_read_unless_minusZero (reference : StepRef) (text : String)
    (raw : Entries String String) :
    (∀ step, Step.parse reference text = .ok step → step.operation = .limit →
      ∃ literal, ∃ count : Nat, step.arguments = [.literal literal] ∧
        literal.toValue = .integer count ∧
        (¬Number.IsMinusZero (Draft.firstContent step) →
          Number.nat64? (Draft.firstContent step) = some count) ∧
        (Number.IsMinusZero (Draft.firstContent step) →
          count = 0 ∧ Number.nat64? (Draft.firstContent step) = none)) ∧
    ∀ plan, Plan.parse raw = .ok plan →
      (∀ error, plan.drafts = .error error → error.kind = .internal →
        ∃ step ∈ plan.steps, step.operation = .limit ∧
          Number.IsMinusZero (Draft.firstContent step) ∧
          error = .invariant s!"limit step {step.reference.text} is not a non-negative integer") ∧
      ∀ drafts, plan.drafts = .ok drafts → ∀ step ∈ plan.steps, step.operation = .limit →
        ¬Number.IsMinusZero (Draft.firstContent step) := by
  refine ⟨?_, fun plan parsed => ⟨?_, ?_⟩⟩
  · intro step parsed operation
    have read := (Step.isCanonical_of_parse parsed).reads_limit operation
    rwa [Step.limit?, if_pos operation] at read
  · intro error failed internal
    cases (Plan.isArranged_of_parse parsed).failure_of_drafts failed with
    | notAnEntity | columnNotExposed | ambiguousColumn | unsupportedReturnArgument
    | duplicateReturnClause | unresolved => cases internal
    | @limit step member operation unread =>
        refine ⟨step, member, operation, ?_, rfl⟩
        obtain ⟨literal, count, -, -, read, -⟩ :=
          (Plan.isCanonical_of_mem parsed member).reads_limit operation
        by_contra noMinusZero
        have isRead := read noMinusZero
        rw [Step.limit?, if_pos operation, unread] at isRead
        cases isRead
  · intro drafts drafted step member operation isMinusZero
    have arranged := Plan.isArranged_of_parse parsed
    obtain ⟨findings, -, records⟩ := arranged.records_of_drafts drafted
    obtain ⟨count, isRead, -⟩ :=
      records.limits step member (arranged.mem_visited member) operation
    rw [Step.limit?, if_pos operation, isMinusZero.nat64?_eq_none] at isRead
    cases isRead

def limitedAges (limit : String) : Entries String String :=
  [("|1|", "(retrieve_entity Person)"), ("|2|", "(retrieve_attribute |1| age)"),
    ("|3|", "(collect |2|)"), ("|4|", limit), ("|5|", "(return |3| |4|)")]

/-- A limit with a plus sign and zeros in front is read. -/
theorem limits_read_unless_minusZero_padded :
    (∃ step literal, Step.parse ⟨"4", rfl⟩ "(limit +007)" = .ok step ∧
      step.arguments = [.literal literal] ∧ literal.toValue = .integer 7 ∧
      Number.nat64? (Draft.firstContent step) = some 7) ∧
    ∃ plan drafts, Plan.parse (limitedAges "(limit +007)") = .ok plan ∧ plan.drafts = .ok drafts ∧
      drafts.map (·.limit) = [some 7] ∧
      ∀ step ∈ plan.steps, step.operation = .limit →
        ¬Number.IsMinusZero (Draft.firstContent step) := by
  have reads := limits_read_unless_minusZero ⟨"4", rfl⟩ "(limit +007)" (limitedAges "(limit +007)")
  constructor
  · have runs : (Step.parse ⟨"4", rfl⟩ "(limit +007)").map (fun step =>
        (step.operation, Draft.firstContent step)) = .ok (.limit, "+007") := by
      decide +kernel
    obtain ⟨step, parsed, parts⟩ := map_eq_ok_iff.mp runs
    obtain ⟨operation, content⟩ := Prod.mk.inj parts
    obtain ⟨literal, count, arguments, value, read, -⟩ := reads.1 step parsed operation
    rw [content] at read
    have noMinusZero : ¬Number.IsMinusZero "+007" := by
      rintro ⟨rest, starts, -⟩
      have first : "+007".toList.head? = some '+' := by decide
      rw [starts] at first
      cases first
    have isSeven : Number.nat64? "+007" = some 7 := by decide +kernel
    obtain rfl : count = 7 := Option.some.inj ((read noMinusZero).symm.trans isSeven)
    exact ⟨step, literal, parsed, arguments, value, by rw [content, isSeven]⟩
  · have runs : (Plan.parse (limitedAges "(limit +007)") >>= fun plan =>
        plan.drafts.map fun drafts => drafts.map (·.limit)) = .ok [some 7] := by
      decide +kernel
    obtain ⟨plan, parsed, runs⟩ := bind_eq_ok_iff.mp runs
    obtain ⟨drafts, drafted, limits⟩ := map_eq_ok_iff.mp runs
    exact ⟨plan, drafts, parsed, drafted, limits, (reads.2 plan parsed).2 drafts drafted⟩

/-- A zero with a minus sign is accepted as a limit, and drafting reports a broken invariant. -/
theorem exists_limit_unread :
    ∃ plan, Plan.parse (limitedAges "(limit -0)") = .ok plan ∧
      plan.drafts = .error (.invariant "limit step |4| is not a non-negative integer") := by
  have runs : (Plan.parse (limitedAges "(limit -0)")).map (fun plan => plan.drafts.map List.length) =
      .ok (.error (.invariant "limit step |4| is not a non-negative integer")) := by
    decide +kernel
  obtain ⟨plan, parsed, failed⟩ := map_eq_ok_iff.mp runs
  exact ⟨plan, parsed, map_eq_error_iff.mp failed⟩

end SemanticQuery
