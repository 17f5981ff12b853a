import SemanticQuery.Proofs.Renaming.Text

/-!
# Renaming steps

A renamed text is read as the renamed step, or as none if the text is read as none.
-/

namespace SemanticQuery

variable (newName : StepRef ↪ StepRef)

/-! ## Arguments -/

namespace Argument

def rename : Argument → Argument
  | .reference target => .reference (newName target)
  | .literal value => .literal value

@[simp] theorem reference?_rename (a : Argument) :
    (a.rename newName).reference? = a.reference?.map newName := by
  cases a <;> rfl

@[simp] theorem literal?_rename (a : Argument) : (a.rename newName).literal? = a.literal? := by
  cases a <;> rfl

theorem ofToken?_rename (token : Token) :
    ofToken? (token.rename newName) = (ofToken? token).map (rename newName) := by
  cases token with
  | opening | closing | quoted => rfl
  | word text =>
      cases found : StepRef.ofText? text with
      | some target => simp [Token.rename, Token.renameWord, ofToken?, found, rename]
      | none => simp [Token.rename, Token.renameWord, ofToken?, found, rename]

end Argument

/-! ## Lists of tokens -/

namespace Token

theorem toOption_arguments_rename (size otherSize : Nat) (tokens : List Token) :
    (arguments otherSize (tokens.map (rename newName))).toOption =
      (arguments size tokens).toOption.map (List.map (rename newName)) := by
  induction tokens with
  | nil => rfl
  | cons token rest ih =>
      cases token with
      | opening => rfl
      | closing =>
          cases rest with
          | nil => rfl
          | cons => rfl
      | word text | quoted text =>
          simp only [List.map_cons, rename, arguments, toOption_map, ih, Option.map_map]
          congr 1

theorem toOption_splitList_rename (size otherSize : Nat) (tokens : List Token) :
    (splitList otherSize (tokens.map (rename newName))).toOption =
      (splitList size tokens).toOption.map fun parts =>
        (renameWord newName parts.1, parts.2.map (rename newName)) := by
  match tokens with
  | .opening :: .word name :: rest =>
      simp only [List.map_cons, rename, splitList, toOption_map,
        toOption_arguments_rename newName size otherSize, Option.map_map]
      rfl
  | .opening :: .closing :: _ | .opening :: .quoted _ :: _ | .opening :: .opening :: _
  | [.opening] | [] | .closing :: _ | .word _ :: _ | .quoted _ :: _ => rfl

/-- A renamed text is split into the renamed parts. -/
theorem toOption_splitStep_renameText (text : String) :
    (splitStep (renameText newName text)).toOption =
      (splitStep text).toOption.map fun parts =>
        (renameWord newName parts.1, parts.2.map (rename newName)) := by
  simp only [splitStep, toOption_bind, tokenize_renameText, Option.bind_map, Option.map_bind]
  congr 1
  funext tokens
  exact toOption_splitList_rename newName _ _ tokens

end Token

/-- No operation has the name of a reference. -/
theorem Operation.ofName?_renameWord (name : String) :
    ofName? (Token.renameWord newName name) = ofName? name := by
  have unnamed {text : String} {reference : StepRef}
      (isReference : StepRef.ofText? text = some reference) : ofName? text = none := by
    refine List.find?_eq_none.mpr ?_
    intro operation _ named
    have noReference : StepRef.ofText? operation.name = none := by cases operation <;> decide
    rw [of_decide_eq_true named, isReference] at noReference
    cases noReference
  unfold Token.renameWord
  split
  · rename_i reference isReference
    rw [unnamed isReference, unnamed (StepRef.ofText?_text _)]
  · rfl

/-! ## Steps -/

namespace Step

def rename (step : Step) : Step where
  reference := newName step.reference
  operation := step.operation
  arguments := step.arguments.map (Argument.rename newName)

@[simp] theorem reference_rename (step : Step) :
    (step.rename newName).reference = newName step.reference :=
  rfl

@[simp] theorem operation_rename (step : Step) :
    (step.rename newName).operation = step.operation :=
  rfl

@[simp] theorem arguments_rename (step : Step) :
    (step.rename newName).arguments = step.arguments.map (Argument.rename newName) :=
  rfl

def accepted? (step : Step) : Option Step :=
  step.checkArity.toOption.bind fun _ => step.checkShape.toOption.bind fun _ => some step

/-- Reading a step, whatever is wrong with those that are refused. -/
theorem toOption_parse (reference : StepRef) (text : String) :
    (parse reference text).toOption =
      (Token.splitStep text).toOption.bind fun parts =>
        (Operation.ofName? parts.1).bind fun operation =>
          accepted? ⟨reference, operation, parts.2.filterMap Argument.ofToken?⟩ := by
  unfold parse
  split
  · rename_i failed
    rw [failed]
    rfl
  · rename_i name tokens split
    rw [split]
    cases named : Operation.ofName? name with
    | none => simp [named]
    | some operation => simp [named, accepted?]

theorem toOption_checkArity_rename (step : Step) :
    (step.rename newName).checkArity.toOption = step.checkArity.toOption := by
  unfold checkArity
  simp only [rename, List.length_map]
  split <;> rfl

theorem toOption_checkReferencesOnly_rename (step : Step) :
    (step.rename newName).checkReferencesOnly.toOption = step.checkReferencesOnly.toOption := by
  have same : (step.rename newName).arguments.findIdx? (fun a => a.reference?.isNone) =
      step.arguments.findIdx? fun a => a.reference?.isNone := by
    simp [rename, List.findIdx?_map, Function.comp_def]
  unfold checkReferencesOnly
  rw [same]
  split <;> rfl

theorem isSome_sortProblem?_rename (position : Nat) (a : Argument) :
    (sortProblem? position (a.rename newName)).isSome = (sortProblem? position a).isSome := by
  unfold sortProblem?
  simp only [Argument.reference?_rename, Argument.literal?_rename, Option.isNone_map]
  split
  · rfl
  · split <;> rfl

theorem toOption_checkSort (step : Step) :
    step.checkSort.toOption =
      if step.arguments.length % 2 ≠ 0 ∨
        step.arguments.zipIdx.any (fun item => (sortProblem? item.2 item.1).isSome) then none
      else some () := by
  have problems : (step.arguments.zipIdx.findSome? fun item =>
        (sortProblem? item.2 item.1).map fun message => (item.2, message)).isSome =
      step.arguments.zipIdx.any fun item => (sortProblem? item.2 item.1).isSome := by
    simp [List.isSome_findSome?]
  unfold checkSort
  split
  · simp [*]
  · rw [← problems]
    split <;> simp [*]

theorem toOption_checkSort_rename (step : Step) :
    (step.rename newName).checkSort.toOption = step.checkSort.toOption := by
  simp only [toOption_checkSort, arguments_rename, List.length_map, List.zipIdx_map, List.any_map,
    Function.comp_def, Prod.map, isSome_sortProblem?_rename, id_eq]

theorem isNatural_rename (a : Argument) : isNatural (a.rename newName) = isNatural a := by
  rw [isNatural, isNatural, Argument.literal?_rename]

theorem toOption_checkShape_rename (step : Step) :
    (step.rename newName).checkShape.toOption = step.checkShape.toOption := by
  have listing := step.toOption_checkReferencesOnly_rename newName
  have sorting := step.toOption_checkSort_rename newName
  obtain ⟨reference, operation, arguments⟩ := step
  cases operation with
  | collect | groupBy | output | rowNumber => exact listing
  | sort => exact sorting
  | retrieveEntity | retrieveAttribute =>
      cases arguments with
      | nil => rfl
      | cons first rest => cases first <;> rfl
  | limit =>
      cases arguments with
      | nil => rfl
      | cons first rest =>
          have natural := isNatural_rename newName first
          cases isNat : isNatural first <;> simp [checkShape, rename, natural, isNat]
  | _ => rfl

theorem accepted?_rename (step : Step) :
    (step.rename newName).accepted? = step.accepted?.map (rename newName) := by
  simp only [accepted?, toOption_checkArity_rename, toOption_checkShape_rename, Option.map_bind,
    Function.comp_def, Option.map_some]

/-- A renamed text under the new name is read as the renamed step. -/
theorem toOption_parse_rename (reference : StepRef) (text : String) :
    (parse (newName reference) (Token.renameText newName text)).toOption =
      (parse reference text).toOption.map (rename newName) := by
  have renamed (tokens : List Token) :
      (tokens.map (Token.rename newName)).filterMap Argument.ofToken? =
        (tokens.filterMap Argument.ofToken?).map (Argument.rename newName) := by
    rw [List.filterMap_map, List.map_filterMap]
    exact congrArg (List.filterMap · tokens) (funext (Argument.ofToken?_rename newName))
  simp only [toOption_parse, Token.toOption_splitStep_renameText, Option.bind_map, Option.map_bind]
  refine Option.bind_congr fun parts _ => ?_
  simp only [Function.comp_apply, Operation.ofName?_renameWord, Option.map_bind, renamed]
  refine Option.bind_congr fun operation _ => ?_
  exact accepted?_rename newName ⟨reference, operation, parts.2.filterMap Argument.ofToken?⟩

end Step

end SemanticQuery
