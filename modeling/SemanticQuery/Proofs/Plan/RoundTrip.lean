import SemanticQuery.Proofs.Plan.Parsed

/-!
# Plans from their canonical texts

The canonical texts of the steps of a plan, under the texts of their references, are read as the
same steps in the same order; and the steps alone determine the rest of the plan.
-/

namespace SemanticQuery.Plan

def entryOf (step : Step) : String × String :=
  (step.reference.text, step.text)

theorem isReadAs_entryOf {step : Step} (canonical : step.IsCanonical) :
    IsReadAs (entryOf step) step := by
  refine ⟨step.reference, ?_, Step.parse_text canonical⟩
  rw [entryOf, StepRef.trim_text, StepRef.ofText?_text]

theorem parseSteps_entryOf {steps : List Step} (parsed : AreParsed steps) :
    parseSteps (steps.map entryOf) = .ok steps := by
  refine parseSteps_eq_ok_iff.mpr ⟨?_, parsed.distinct⟩
  rw [List.forall₂_map_left_iff, List.forall₂_same]
  exact fun step member => isReadAs_entryOf (parsed.canonical step member)

theorem texts_eq_map_entryOf (plan : Plan) : plan.texts = plan.steps.map entryOf :=
  rfl

/--
Writing a plan and reading it again gives the same plan, part by part, and the texts it is written
as have distinct keys.  In the same way every step that was read is read again from its canonical
text, whatever its quoted literals hold.
-/
theorem parse_texts_eq_ok :
    (∀ (raw : Entries String String) (plan : Plan), parse raw = .ok plan →
      parse plan.texts = .ok plan ∧ (plan.texts.map (·.1)).Nodup) ∧
    (∀ (reference : StepRef) (text : String) (step : Step), Step.parse reference text = .ok step →
      Step.parse reference step.text = .ok step) := by
  constructor
  · intro raw plan parsed
    obtain ⟨steps, read, targets, formed⟩ := parse_eq_ok_iff.mp parsed
    have areParsed := areParsed_of_parseSteps read
    have same := (isFormed_of_ofSteps formed).steps_eq
    rw [texts_eq_map_entryOf, same]
    constructor
    · exact parse_eq_ok_iff.mpr ⟨steps, parseSteps_entryOf areParsed, targets, formed⟩
    · have keys : (steps.map entryOf).map (·.1) = (steps.map (·.reference)).map StepRef.text := by
        simp [entryOf]
      rw [keys]
      exact areParsed.distinct.map fun _ _ => StepRef.text_injective
  · intro reference text step parsed
    have again := Step.parse_text (Step.isCanonical_of_parse parsed)
    rwa [Step.reference_of_parse parsed] at again

/-- A plan with a padded key whose literals hold both quotes, a backslash, bars, parentheses and
blanks, and one of its steps on its own. -/
theorem parse_texts_eq_ok_literals :
    (∃ plan, parse [("|1|", "(retrieve_entity 'Person (all)')"),
        (" |2| ", "(retrieve_attribute |1| \"|1|\")"),
        ("|3|", "( exact |2| 'O\\'Neil \\\\ \"Jr\" (|2|) é' )"),
        ("|4|", "(collect |2|)"), ("|5|", "(return |4| |3|)")] = .ok plan ∧
      parse plan.texts = .ok plan ∧ (plan.texts.map (·.1)).Nodup) ∧
    ∃ step, Step.parse ⟨"3", rfl⟩ "(exact |2|'a \"b\" \\\\)')" = .ok step ∧
      Step.parse ⟨"3", rfl⟩ step.text = .ok step := by
  constructor
  · exact exists_ok_of_isOk (by decide +kernel) fun plan => parse_texts_eq_ok.1 _ plan
  · exact exists_ok_of_isOk (by decide +kernel) fun step => parse_texts_eq_ok.2 _ _ step

end SemanticQuery.Plan
