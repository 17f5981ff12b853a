import SemanticQuery.Proofs.Draft.Sources
import SemanticQuery.Proofs.Resolve.Query
import SemanticQuery.Proofs.Ring.Linked
import SemanticQuery.Proofs.Sql.Parts

/-!
# The columns of handles

A handle resolves only if all that occurs in it does, and it needs the joins of all that occurs in
it.  Its expression reads the columns that its attributes are stored in and those of other subplans
that it refers to.
-/

namespace SemanticQuery

open Sql Sql.Expr

/-! ## Attributes -/

@[simp]
theorem DatePart.columns_extract (dialect : Dialect) (part : Option DatePart) (operand : Expr) :
    (DatePart.extract dialect part operand).columns = operand.columns := by
  cases part with
  | none => rfl
  | some part => cases dialect <;> cases part <;> simp [extract, postgresExpr]

@[simp]
theorem Attribute.columns_replaceNulls (a : Attribute) (operand : Expr) :
    (a.replaceNulls operand).columns = operand.columns := by
  unfold replaceNulls
  split
  · split <;> simp
  · rfl

@[simp]
theorem Attribute.columns_round (a : Attribute) (dialect : Dialect) (operand : Expr) :
    (a.round dialect operand).columns = operand.columns := by
  unfold round
  split <;> simp

/-- The column that holds an attribute of an entity, or its identifier. -/
def Ring.storedIn? (ring : Ring) (entityName name : String) : Option ColumnRef := do
  let entity ← ring.entity? entityName
  let base := (DatePart.split name).1
  if entity.isIdentifier base then
    return ⟨entity.table, ← entity.identifiers.head?⟩
  else
    let a ← entity.attribute? base
    return ⟨a.table, ← a.column?⟩

structure Scope.IsField (scope : Scope) (entityName name : String) (resolved : Resolved)
    (entity : Entity) (column : ColumnRef) : Prop where
  known : scope.ring.entity? entityName = some entity
  stored : scope.ring.storedIn? entityName name = some column
  columns : resolved.expr.columns = [column]
  joins : column.table = entity.table ∨ ∃ a, entity.attribute? (DatePart.split name).1 = some a ∧
    a.table = column.table ∧
    scope.ring.attributeJoins entityName (DatePart.split name).1 = .ok resolved.joins

theorem Scope.exists_isField {scope : Scope} {entityName name : String} {resolved : Resolved}
    (found : scope.field entityName name = .ok resolved) :
    ∃ entity column, scope.IsField entityName name resolved entity column := by
  obtain ⟨entity, known, found⟩ := bind_eq_ok_iff.mp found
  rw [Ring.entity_eq_ok_iff] at known
  dsimp only at found
  split at found
  · rename_i identifier
    split at found
    · rename_i column isColumn
      cases found
      refine ⟨entity, ⟨entity.table, column⟩, known, ?_, by simp, .inl rfl⟩
      simp [Ring.storedIn?, known, identifier, isColumn]
    · cases found
  · rename_i noIdentifier
    obtain ⟨a, isAttribute, found⟩ := bind_eq_ok_iff.mp found
    have isAttribute := Ring.attributeOf_eq_ok known isAttribute
    obtain ⟨joins, isJoins, found⟩ := bind_eq_ok_iff.mp found
    split at found
    · cases found
    · rename_i column isColumn
      obtain ⟨physical, isPhysical, same⟩ := bind_eq_ok_iff.mp found
      cases same
      unfold Ring.physicalColumn at isPhysical
      split at isPhysical
      · cases isPhysical
      · cases isPhysical
        refine ⟨entity, ⟨a.table, column⟩, known, ?_, by simp, .inr ⟨a, isAttribute, rfl, isJoins⟩⟩
        simp [Ring.storedIn?, known, noIdentifier, isAttribute, isColumn]

/-- The joins that an attribute of an entity needs, read without its date part; none if that is the
identifier. -/
def Ring.fieldJoins (ring : Ring) (entityName name : String) : Except Error NameSet := do
  let entity ← ring.entity entityName
  let base := (DatePart.split name).1
  if entity.isIdentifier base then .ok [] else ring.attributeJoins entityName base

theorem Scope.fieldJoins_of_field {scope : Scope} {entityName name : String} {resolved : Resolved}
    (found : scope.field entityName name = .ok resolved) :
    scope.ring.fieldJoins entityName name = .ok resolved.joins := by
  obtain ⟨entity, known, found⟩ := bind_eq_ok_iff.mp found
  refine bind_eq_ok_iff.mpr ⟨entity, known, ?_⟩
  dsimp only at found ⊢
  split at found
  · rename_i identifier
    rw [if_pos identifier]
    split at found
    · cases found
      rfl
    · cases found
  · rename_i noIdentifier
    rw [if_neg noIdentifier]
    obtain ⟨a, -, found⟩ := bind_eq_ok_iff.mp found
    obtain ⟨joins, isJoins, found⟩ := bind_eq_ok_iff.mp found
    split at found
    · cases found
    · obtain ⟨_, -, same⟩ := bind_eq_ok_iff.mp found
      cases same
      exact isJoins

/-! ## Handles -/

/-- The column that a handle stands for, if it is no expression. -/
def Handle.column? (ring : Ring) : Handle → Option ColumnRef
  | .field entity name => ring.storedIn? entity name
  | .column subplan name _ => some ⟨subplan.text, name⟩
  | .expression .. => none

theorem Scope.exposed_of_column {scope : Scope} {subplan : SubplanId} {name : String}
    {resolved : Resolved} (found : scope.column subplan name = .ok resolved) :
    resolved.expr = .column subplan.text name ∧
      ∃ columns, scope.exposed.get? subplan = some columns ∧ name ∈ columns := by
  unfold Scope.column at found
  split at found
  · rename_i exposed
    cases found
    obtain ⟨columns, isExposed, listed⟩ := Option.any_eq_true _ _ |>.mp exposed
    exact ⟨rfl, columns, isExposed, List.contains_iff_mem.mp listed⟩
  · cases found

section Operands

variable {scope : Scope} {operands : List Operand}

theorem Operand.exists_of_resolveAll {results : List Resolved}
    (found : Operand.resolveAll scope operands = .ok results) {inner : Handle}
    (member : .handle inner ∈ operands) :
    ∃ result ∈ results, inner.resolve scope = .ok result := by
  induction operands generalizing results with
  | nil => cases member
  | cons operand rest ih =>
      cases operand with
      | handle first =>
          rw [Operand.resolveAll] at found
          obtain ⟨result, firstOk, found⟩ := bind_eq_ok_iff.mp found
          obtain ⟨others, othersOk, same⟩ := bind_eq_ok_iff.mp found
          cases same
          rcases List.mem_cons.mp member with same | later
          · cases same
            exact ⟨result, List.mem_cons_self, firstOk⟩
          · obtain ⟨other, listed, otherOk⟩ := ih othersOk later
            exact ⟨other, List.mem_cons_of_mem _ listed, otherOk⟩
      | literal value =>
          rw [Operand.resolveAll] at found
          obtain ⟨others, othersOk, same⟩ := bind_eq_ok_iff.mp found
          cases same
          rcases List.mem_cons.mp member with impossible | later
          · cases impossible
          · obtain ⟨other, listed, otherOk⟩ := ih othersOk later
            exact ⟨other, List.mem_cons_of_mem _ listed, otherOk⟩
      | direction value =>
          rw [Operand.resolveAll] at found
          rcases List.mem_cons.mp member with impossible | later
          · cases impossible
          · exact ih found later

theorem Operand.exists_of_resolveTerms {operands : List Operand}
    {terms : List (OrderTerm Expr × List String)}
    (found : Operand.resolveTerms scope operands = .ok terms) {inner : Handle}
    (member : .handle inner ∈ operands) :
    ∃ term ∈ terms, ∃ result, inner.resolve scope = .ok result ∧ term.1.expr = result.expr ∧
      term.2 = result.joins := by
  match operands with
  | [] => cases member
  | .handle first :: .direction order :: rest =>
      rw [Operand.resolveTerms] at found
      obtain ⟨key, keyOk, found⟩ := bind_eq_ok_iff.mp found
      obtain ⟨others, othersOk, same⟩ := bind_eq_ok_iff.mp found
      cases same
      rcases List.mem_cons.mp member with same | later
      · cases same
        exact ⟨_, List.mem_cons_self, key, keyOk, rfl, rfl⟩
      · rcases List.mem_cons.mp later with impossible | later
        · cases impossible
        · obtain ⟨term, listed, result, resultOk, parts⟩ := exists_of_resolveTerms othersOk later
          exact ⟨term, List.mem_cons_of_mem _ listed, result, resultOk, parts⟩
  | [.handle _] | .handle _ :: .handle _ :: _ | .handle _ :: .literal _ :: _ | .literal _ :: _
  | .direction _ :: _ => simp [Operand.resolveTerms] at found

section Failures

variable {property : Error → Prop}

/-- Operands fail to resolve only as one of the handles among them does. -/
theorem Operand.failsOnly_resolveAll
    (each : ∀ inner, .handle inner ∈ operands → FailsOnly property (inner.resolve scope)) :
    FailsOnly property (Operand.resolveAll scope operands) := by
  induction operands with
  | nil =>
      rw [Operand.resolveAll]
      exact FailsOnly.ok _
  | cons operand rest ih =>
      have others := ih fun inner member => each inner (List.mem_cons_of_mem _ member)
      cases operand with
      | handle first =>
          rw [Operand.resolveAll]
          refine FailsOnly.bind (each first List.mem_cons_self) fun _ _ => ?_
          exact FailsOnly.bind others fun _ _ => FailsOnly.ok _
      | literal value =>
          rw [Operand.resolveAll]
          exact FailsOnly.bind others fun _ _ => FailsOnly.ok _
      | direction value =>
          rw [Operand.resolveAll]
          exact others

/-- Ordering terms fail as their keys do, or because the operands are no pairs. -/
theorem Operand.failsOnly_resolveTerms {operands : List Operand}
    (each : ∀ inner, .handle inner ∈ operands → FailsOnly property (inner.resolve scope))
    (unpaired : ∀ reason, property (.invariant reason)) :
    FailsOnly property (Operand.resolveTerms scope operands) := by
  match operands with
  | [] => simp [Operand.resolveTerms]
  | .handle first :: .direction order :: rest =>
      rw [Operand.resolveTerms]
      refine FailsOnly.bind (each first List.mem_cons_self) fun key _ => ?_
      refine FailsOnly.bind (failsOnly_resolveTerms ?_ unpaired) fun _ _ => FailsOnly.ok _
      exact fun inner member => each inner (by simp [member])
  | [.handle _] | .handle _ :: .handle _ :: _ | .handle _ :: .literal _ :: _ | .literal _ :: _
  | .direction _ :: _ => simp [Operand.resolveTerms, unpaired]

end Failures

variable {reads : Handle → Prop} {column : ColumnRef}

theorem Operand.mem_columns_resolveAll {results : List Resolved}
    (each : ∀ inner, .handle inner ∈ operands → ∀ result, inner.resolve scope = .ok result →
      (column ∈ result.expr.columns ↔ reads inner))
    (found : Operand.resolveAll scope operands = .ok results) :
    column ∈ columnsOfList (results.map (·.expr)) ↔
      ∃ inner, .handle inner ∈ operands ∧ reads inner := by
  induction operands generalizing results with
  | nil =>
      rw [Operand.resolveAll] at found
      cases found
      simp
  | cons operand rest ih =>
      have later {others : List Resolved} (run : Operand.resolveAll scope rest = .ok others) :=
        ih (fun inner member => each inner (List.mem_cons_of_mem _ member)) run
      cases operand with
      | handle first =>
          rw [Operand.resolveAll] at found
          obtain ⟨result, firstOk, found⟩ := bind_eq_ok_iff.mp found
          obtain ⟨others, othersOk, same⟩ := bind_eq_ok_iff.mp found
          cases same
          rw [List.map_cons, columnsOfList, List.mem_append, later othersOk,
            each first List.mem_cons_self result firstOk]
          simp [or_and_right, exists_or]
      | literal value =>
          rw [Operand.resolveAll] at found
          obtain ⟨others, othersOk, same⟩ := bind_eq_ok_iff.mp found
          cases same
          rw [List.map_cons, columnsOfList, columns, List.nil_append, later othersOk]
          simp
      | direction value =>
          rw [Operand.resolveAll] at found
          rw [later found]
          simp

theorem Operand.mem_columns_resolveTerms {operands : List Operand}
    {terms : List (OrderTerm Expr × List String)}
    (each : ∀ inner, .handle inner ∈ operands → ∀ result, inner.resolve scope = .ok result →
      (column ∈ result.expr.columns ↔ reads inner))
    (found : Operand.resolveTerms scope operands = .ok terms) :
    column ∈ columnsOfTerms (terms.map (·.1)) ↔
      ∃ inner, .handle inner ∈ operands ∧ reads inner := by
  match operands with
  | [] =>
      rw [Operand.resolveTerms] at found
      cases found
      simp
  | .handle first :: .direction order :: rest =>
      rw [Operand.resolveTerms] at found
      obtain ⟨key, keyOk, found⟩ := bind_eq_ok_iff.mp found
      obtain ⟨others, othersOk, same⟩ := bind_eq_ok_iff.mp found
      cases same
      have later := mem_columns_resolveTerms
        (fun inner member => each inner (by simp [member])) othersOk
      rw [List.map_cons, columnsOfTerms, columnsOfTerm, List.mem_append, later,
        each first List.mem_cons_self key keyOk]
      simp [or_and_right, exists_or]
  | [.handle _] | .handle _ :: .handle _ :: _ | .handle _ :: .literal _ :: _ | .literal _ :: _
  | .direction _ :: _ => simp [Operand.resolveTerms] at found

/-! ### Joins -/

theorem Operand.joins_of_resolveAll {property : String → Prop}
    {results : List Resolved} (found : Operand.resolveAll scope operands = .ok results)
    (each : ∀ inner, .handle inner ∈ operands → ∀ result, inner.resolve scope = .ok result →
      ∀ name ∈ result.joins, property name) :
    ∀ name ∈ results.flatMap (·.joins), property name := by
  induction operands generalizing results with
  | nil =>
      rw [Operand.resolveAll] at found
      cases found
      simp
  | cons operand rest ih =>
      have later {others : List Resolved} (othersOk : Operand.resolveAll scope rest = .ok others) :=
        ih othersOk fun inner member => each inner (List.mem_cons_of_mem _ member)
      cases operand with
      | handle first =>
          rw [Operand.resolveAll] at found
          obtain ⟨result, firstOk, found⟩ := bind_eq_ok_iff.mp found
          obtain ⟨others, othersOk, same⟩ := bind_eq_ok_iff.mp found
          cases same
          rw [List.flatMap_cons]
          exact fun name needed => (List.mem_append.mp needed).elim
            (each first List.mem_cons_self result firstOk name) (later othersOk name)
      | literal value =>
          rw [Operand.resolveAll] at found
          obtain ⟨others, othersOk, same⟩ := bind_eq_ok_iff.mp found
          cases same
          rw [List.flatMap_cons, List.nil_append]
          exact later othersOk
      | direction value =>
          rw [Operand.resolveAll] at found
          exact later found

theorem Operand.joins_of_resolveTerms {property : String → Prop} {operands : List Operand}
    {terms : List (OrderTerm Expr × List String)}
    (found : Operand.resolveTerms scope operands = .ok terms)
    (each : ∀ inner, .handle inner ∈ operands → ∀ result, inner.resolve scope = .ok result →
      ∀ name ∈ result.joins, property name) :
    ∀ name ∈ terms.flatMap (·.2), property name := by
  match operands with
  | [] =>
      rw [Operand.resolveTerms] at found
      cases found
      simp
  | .handle first :: .direction order :: rest =>
      rw [Operand.resolveTerms] at found
      obtain ⟨key, keyOk, found⟩ := bind_eq_ok_iff.mp found
      obtain ⟨others, othersOk, same⟩ := bind_eq_ok_iff.mp found
      cases same
      have later := joins_of_resolveTerms othersOk fun inner member => each inner (by simp [member])
      rw [List.flatMap_cons]
      exact fun name needed => (List.mem_append.mp needed).elim
        (each first List.mem_cons_self key keyOk name) (later name)
  | [.handle _] | .handle _ :: .handle _ :: _ | .handle _ :: .literal _ :: _ | .literal _ :: _
  | .direction _ :: _ => simp [Operand.resolveTerms] at found

end Operands

theorem Scope.apply_cases {scope : Scope} {operation : Operation} {operands : List Resolved}
    {resolved : Resolved} (applied : scope.apply operation operands = .ok resolved) :
    resolved.joins = operands.flatMap (·.joins) ∧ ∀ column,
      column ∈ resolved.expr.columns ↔ column ∈ columnsOfList (operands.map (·.expr)) := by
  obtain ⟨result, compiled, applied⟩ := bind_eq_ok_iff.mp applied
  dsimp only at applied
  split at applied
  · cases applied
    refine ⟨rfl, fun column => ?_⟩
    rw [Operation.columns_rounded]
    exact Operation.mem_columns_compile compiled
  · cases applied
    exact ⟨rfl, fun column => Operation.mem_columns_compile compiled⟩

theorem Scope.occurs_apply {scope : Scope} {operation : Operation} {operands : List Resolved}
    {resolved : Resolved} (applied : scope.apply operation operands = .ok resolved)
    {operand : Resolved} (member : operand ∈ operands) : operand.expr.Occurs resolved.expr := by
  obtain ⟨result, compiled, applied⟩ := bind_eq_ok_iff.mp applied
  have within : operand.expr.Occurs result :=
    Operation.occurs_compile compiled _ (List.mem_map_of_mem member)
  dsimp only at applied
  split at applied
  · cases applied
    exact within.trans (Operation.occurs_rounded _ _ result)
  · cases applied
    exact within

namespace Handle

variable {scope : Scope} {inner handle : Handle} {resolved : Resolved}

/-- What an operand resolves to is part of what the whole resolves to. -/
theorem exists_resolve_of_isOperand (operand : IsOperand inner handle)
    (found : handle.resolve scope = .ok resolved) :
    ∃ result, inner.resolve scope = .ok result ∧ result.expr.Occurs resolved.expr ∧
      result.joins ⊆ resolved.joins := by
  cases handle with
  | field entity name => cases operand
  | column subplan name origin => cases operand
  | expression operation operands =>
      rw [Handle.resolve] at found
      split at found
      · obtain ⟨terms, termsOk, same⟩ := bind_eq_ok_iff.mp found
        cases same
        obtain ⟨term, listed, result, resultOk, isExpr, joins⟩ :=
          Operand.exists_of_resolveTerms termsOk operand
        refine ⟨result, resultOk, ?_, ?_⟩
        · have isPart : result.expr ∈ (terms.map (·.1)).map (·.expr) :=
            List.mem_map.mpr ⟨term.1, List.mem_map_of_mem listed, isExpr⟩
          exact .single isPart
        · intro name needed
          exact List.mem_flatMap.mpr ⟨term, listed, joins ▸ needed⟩
      · obtain ⟨-, -, found⟩ := bind_eq_ok_iff.mp found
        obtain ⟨results, resultsOk, applied⟩ := bind_eq_ok_iff.mp found
        obtain ⟨result, listed, resultOk⟩ := Operand.exists_of_resolveAll resultsOk operand
        refine ⟨result, resultOk, Scope.occurs_apply applied listed, ?_⟩
        intro name needed
        rw [(Scope.apply_cases applied).1]
        exact List.mem_flatMap.mpr ⟨result, listed, needed⟩

/-- All that occurs in a handle resolves if the handle does, to a part of what the handle resolves to. -/
theorem exists_part_of_occurs (occurs : inner.Occurs handle)
    (found : handle.resolve scope = .ok resolved) :
    ∃ result, inner.resolve scope = .ok result ∧ result.expr.Occurs resolved.expr ∧
      result.joins ⊆ resolved.joins := by
  induction occurs generalizing resolved with
  | refl => exact ⟨resolved, found, .refl, List.Subset.refl _⟩
  | tail _ operand ih =>
      obtain ⟨middle, middleOk, within, fewer⟩ := exists_resolve_of_isOperand operand found
      obtain ⟨result, resultOk, inMiddle, fewest⟩ := ih middleOk
      exact ⟨result, resultOk, inMiddle.trans within, List.Subset.trans fewest fewer⟩

theorem exists_resolve_of_occurs (occurs : inner.Occurs handle)
    (found : handle.resolve scope = .ok resolved) :
    ∃ result, inner.resolve scope = .ok result ∧ result.joins ⊆ resolved.joins := by
  obtain ⟨result, resultOk, -, fewer⟩ := exists_part_of_occurs occurs found
  exact ⟨result, resultOk, fewer⟩

/-- Something occurs in a handle if it is the handle or occurs in an operand. -/
theorem exists_occurs_iff {property : Handle → Prop} :
    (∃ inner : Handle, inner.Occurs handle ∧ property inner) ↔ property handle ∨
      ∃ operand, IsOperand operand handle ∧
        ∃ inner : Handle, inner.Occurs operand ∧ property inner := by
  constructor
  · rintro ⟨inner, occurs, holds⟩
    rcases Relation.ReflTransGen.cases_tail occurs with rfl | ⟨operand, path, last⟩
    · exact .inl holds
    · exact .inr ⟨operand, last, inner, path, holds⟩
  · rintro (holds | ⟨operand, last, inner, path, holds⟩)
    · exact ⟨handle, .refl, holds⟩
    · exact ⟨inner, path.tail last, holds⟩

/-- The expression of a handle reads the columns that occur in the handle. -/
theorem mem_columns_resolve {column : ColumnRef} (found : handle.resolve scope = .ok resolved) :
    column ∈ resolved.expr.columns ↔
      ∃ inner : Handle, inner.Occurs handle ∧ inner.column? scope.ring = some column := by
  induction handle using Handle.induct generalizing resolved with
  | passes handle ih =>
      rw [exists_occurs_iff]
      cases handle with
      | field entity name =>
          rw [Handle.resolve] at found
          obtain ⟨owner, stored, isField⟩ := Scope.exists_isField found
          simp [isField.columns, Handle.column?, isField.stored, IsOperand, eq_comm]
      | column subplan name origin =>
          rw [Handle.resolve] at found
          simp [(Scope.exposed_of_column found).1, Handle.column?, IsOperand, eq_comm]
      | expression operation operands =>
          have each (inner : Handle) (member : .handle inner ∈ operands) (result : Resolved)
              (innerOk : inner.resolve scope = .ok result) :
              column ∈ result.expr.columns ↔ ∃ deeper : Handle, deeper.Occurs inner ∧
                deeper.column? scope.ring = some column :=
            ih inner member innerOk
          have noColumn :
              (Handle.expression operation operands).column? scope.ring ≠ some column := by
            intro same
            cases same
          simp only [or_iff_right noColumn, IsOperand]
          rw [Handle.resolve] at found
          split at found
          · obtain ⟨terms, termsOk, same⟩ := bind_eq_ok_iff.mp found
            cases same
            rw [Expr.columns, Operand.mem_columns_resolveTerms each termsOk]
          · obtain ⟨-, -, found⟩ := bind_eq_ok_iff.mp found
            obtain ⟨results, resultsOk, applied⟩ := bind_eq_ok_iff.mp found
            rw [(Scope.apply_cases applied).2, Operand.mem_columns_resolveAll each resultsOk]

/-- A join is needed by one of the fields that occur in a handle. -/
def NeedsJoin (ring : Ring) (handle : Handle) (join : String) : Prop :=
  ∃ entity name, (Handle.field entity name).Occurs handle ∧
    ∃ joins, ring.fieldJoins entity name = .ok joins ∧ join ∈ joins

/-- What an operand needs is needed for the whole. -/
theorem needsJoin_of_isOperand {ring : Ring} {join : String} (operand : IsOperand inner handle)
    (needed : inner.NeedsJoin ring join) : handle.NeedsJoin ring join := by
  obtain ⟨entity, name, occurs, joins⟩ := needed
  exact ⟨entity, name, occurs.tail operand, joins⟩

/-- The joins of a handle are those that the fields need which occur in it. -/
theorem mem_joins_resolve (found : handle.resolve scope = .ok resolved) {join : String} :
    join ∈ resolved.joins ↔ handle.NeedsJoin scope.ring join := by
  constructor
  · induction handle using Handle.induct generalizing resolved join with
    | passes handle ih =>
        cases handle with
        | field entity name =>
            rw [Handle.resolve] at found
            exact fun needed => ⟨entity, name, .refl, _, Scope.fieldJoins_of_field found, needed⟩
        | column subplan name origin =>
            rw [Handle.resolve, Scope.column] at found
            split at found
            · cases found
              intro needed
              cases needed
            · cases found
        | expression operation operands =>
            have each (inner : Handle) (member : .handle inner ∈ operands) (result : Resolved)
                (innerOk : inner.resolve scope = .ok result) (join : String)
                (needed : join ∈ result.joins) :
                (Handle.expression operation operands).NeedsJoin scope.ring join :=
              needsJoin_of_isOperand member (ih inner member innerOk needed)
            rw [Handle.resolve] at found
            split at found
            · obtain ⟨terms, termsOk, same⟩ := bind_eq_ok_iff.mp found
              cases same
              exact Operand.joins_of_resolveTerms termsOk each join
            · obtain ⟨-, -, found⟩ := bind_eq_ok_iff.mp found
              obtain ⟨results, resultsOk, applied⟩ := bind_eq_ok_iff.mp found
              rw [(Scope.apply_cases applied).1]
              exact Operand.joins_of_resolveAll resultsOk each join
  · rintro ⟨entity, name, occurs, joins, isJoins, listed⟩
    obtain ⟨field, fieldOk, fewer⟩ := exists_resolve_of_occurs occurs found
    rw [Handle.resolve] at fieldOk
    cases isJoins.symm.trans (Scope.fieldJoins_of_field fieldOk)
    exact fewer listed

end Handle

/-! ## Queries -/

def Sql.Select.evaluated (select : Select) : List Expr :=
  select.columns.map (·.1) ++ select.filter.toList ++ select.groupBy ++ select.having.toList ++
    select.orderBy.map (·.expr)

namespace Compilation

variable {compilation : Compilation} {draft resolved : Draft} {select : Select}

/-! ### Joins between entities -/

theorem mem_laterPairs {α : Type} {first second : α} {items : List α} :
    (first, second) ∈ laterPairs items ↔ [first, second].Sublist items := by
  induction items with
  | nil => simp [laterPairs]
  | cons item rest ih =>
      rw [laterPairs, List.mem_append, ih]
      constructor
      · rintro (here | later)
        · obtain ⟨other, listed, same⟩ := List.mem_map.mp here
          cases same
          exact (List.singleton_sublist.mpr listed).cons_cons _
        · exact later.cons item
      · intro pair
        cases pair with
        | cons _ later => exact .inr later
        | cons_cons _ last => exact .inl (List.mem_map_of_mem (List.singleton_sublist.mp last))

/-- The joins among entities are those between each two of them. -/
theorem mem_joinsAmong {ring : Ring} {entities between : List String}
    (found : joinsAmong ring entities = .ok between) {name : String} :
    name ∈ between ↔ ∃ first second joins, [first, second].Sublist entities ∧
      ring.joinsBetween first second = .ok joins ∧ name ∈ joins := by
  obtain ⟨sets, setsOk, same⟩ := bind_eq_ok_iff.mp found
  cases same
  rw [List.mem_flatten]
  constructor
  · rintro ⟨joins, member, listed⟩
    obtain ⟨⟨first, second⟩, isPair, isJoins⟩ := exists_of_mem_mapM setsOk member
    exact ⟨first, second, joins, mem_laterPairs.mp isPair, isJoins, listed⟩
  · rintro ⟨first, second, joins, pair, isJoins, listed⟩
    obtain ⟨others, member, isOthers⟩ := exists_result_of_mem_mapM setsOk (mem_laterPairs.mpr pair)
    cases isJoins.symm.trans isOthers
    exact ⟨joins, member, listed⟩

theorem exists_joinsBetween_of_joinsAmong {ring : Ring} {entities between : List String}
    (found : joinsAmong ring entities = .ok between) {first second : String}
    (pair : [first, second].Sublist entities) :
    ∃ joins, ring.joinsBetween first second = .ok joins := by
  obtain ⟨sets, setsOk, -⟩ := bind_eq_ok_iff.mp found
  obtain ⟨joins, -, isJoins⟩ := exists_result_of_mem_mapM setsOk (mem_laterPairs.mpr pair)
  exact ⟨joins, isJoins⟩

/-! ### Expressions -/

structure Evaluates (compilation : Compilation) (draft : Draft) (select : Select)
    (resolved : Draft) : Prop where
  results : ∃ results, draft.handles.mapM (·.resolve (compilation.scope draft)) = .ok results ∧
    (∀ result ∈ results, result.joins ⊆ resolved.joins) ∧
    ∀ expr ∈ select.evaluated, ∃ result ∈ results, result.expr = expr
  names : select.columns.map (·.2) = draft.select
  between : ∃ between, joinsAmong compilation.ring draft.entitySources = .ok between ∧
    between ⊆ resolved.joins

def Parts.results (parts : Parts) : List Resolved :=
  parts.fields.map (·.2) ++ parts.filter.toList ++ parts.having.toList

/-- The joins that are needed are those of all that was resolved and those between the entities. -/
theorem Parts.mem_needed {parts : Parts} {name : String} :
    name ∈ parts.needed ↔ (∃ result ∈ parts.results, name ∈ result.joins) ∨ name ∈ parts.between := by
  rw [Parts.needed, NameSet.mem_ofList, List.mem_append, ← List.mem_flatMap, Parts.results,
    List.append_assoc, List.flatMap_append, List.flatMap_append, List.flatMap_append, List.flatMap_map]

theorem mem_of_columnExpr {columns : Entries String Expr} {name : String} {expr : Expr}
    (found : columnExpr draft columns name = .ok expr) : (name, expr) ∈ columns := by
  unfold columnExpr at found
  split at found
  · rename_i isFound
    cases found
    exact Entries.mem_of_get? isFound
  · cases found

theorem mapM_toList_of_resolveOption {scope : Scope} {handle : Option Handle}
    {resolved : Option Resolved} (found : resolveOption scope handle = .ok resolved) :
    handle.toList.mapM (·.resolve scope) = .ok resolved.toList := by
  cases handle with
  | none =>
      cases found
      rfl
  | some predicate =>
      obtain ⟨result, resultOk, same⟩ := bind_eq_ok_iff.mp found
      cases same
      exact mapM_eq_ok_iff.mpr (.cons resultOk .nil)

namespace Parts.Compose

variable {parts : Parts}

/-- All handles of a draft are resolved in order. -/
theorem mapM_handles (composed : parts.Compose compilation draft select resolved) :
    draft.handles.mapM (·.resolve (compilation.scope draft)) = .ok parts.results := by
  have values : (draft.fields.map (·.2)).mapM (·.resolve (compilation.scope draft)) =
      .ok (parts.fields.map (·.2)) := by
    have fields := composed.fields
    rw [mapM_eq_ok_iff] at fields ⊢
    rw [List.forall₂_map_left_iff, List.forall₂_map_right_iff]
    refine fields.imp ?_
    intro field result fieldOk
    obtain ⟨found, foundOk, same⟩ := bind_eq_ok_iff.mp fieldOk
    cases same
    exact foundOk
  have filtered := mapM_toList_of_resolveOption composed.filter
  have kept := mapM_toList_of_resolveOption composed.having
  rw [mapM_eq_ok_iff] at values filtered kept ⊢
  exact List.rel_append (List.rel_append values filtered) kept

/-- Every expression of the query outside its joins is that of a handle. -/
theorem exists_result (composed : parts.Compose compilation draft select resolved) {expr : Expr}
    (member : expr ∈ select.evaluated) : ∃ result ∈ parts.results, result.expr = expr := by
  have ofColumn {name : String} {expr : Expr}
      (found : columnExpr draft parts.columns name = .ok expr) :
      ∃ result ∈ parts.fields.map (·.2), result.expr = expr := by
    obtain ⟨field, isField, same⟩ := List.mem_map.mp (mem_of_columnExpr found)
    cases same
    exact ⟨field.2, List.mem_map_of_mem isField, rfl⟩
  have ofOption {found : Option Resolved} {expr : Expr}
      (isFound : expr ∈ (found.map (·.expr)).toList) :
      ∃ result ∈ found.toList, result.expr = expr := by
    obtain ⟨result, isResult, same⟩ := Option.map_eq_some_iff.mp (Option.mem_toList.mp isFound)
    exact ⟨result, Option.mem_toList.mpr isResult, same⟩
  simp only [Select.evaluated, composed.filter_eq, composed.having_eq, List.mem_append] at member
  simp only [Parts.results, List.mem_append, or_and_right, exists_or]
  rcases member with (((inColumns | inFilter) | inGroupBy) | inHaving) | inOrderBy
  · obtain ⟨column, listed, rfl⟩ := List.mem_map.mp inColumns
    obtain ⟨name, -, columnOk⟩ := exists_of_mem_mapM composed.columns listed
    obtain ⟨found, foundOk, same⟩ := bind_eq_ok_iff.mp columnOk
    cases same
    exact .inl (.inl (ofColumn foundOk))
  · exact .inl (.inr (ofOption inFilter))
  · obtain ⟨name, -, columnOk⟩ := exists_of_mem_mapM composed.groupBy inGroupBy
    exact .inl (.inl (ofColumn columnOk))
  · exact .inr (ofOption inHaving)
  · obtain ⟨term, listed, rfl⟩ := List.mem_map.mp inOrderBy
    obtain ⟨key, -, termOk⟩ := exists_of_mem_mapM composed.orderBy listed
    obtain ⟨found, foundOk, same⟩ := bind_eq_ok_iff.mp termOk
    cases same
    exact .inl (.inl (ofColumn foundOk))

theorem map_columns (composed : parts.Compose compilation draft select resolved) :
    select.columns.map (·.2) = draft.select := by
  have names : select.columns.map (·.2) = draft.select.map id := by
    refine map_eq_map_of_forall₂ ?_ (mapM_eq_ok_iff.mp composed.columns)
    intro name column columnOk
    obtain ⟨found, -, same⟩ := bind_eq_ok_iff.mp columnOk
    cases same
    rfl
  rwa [List.map_id] at names

end Parts.Compose

theorem evaluates_of_query (compiled : compilation.query draft = .ok (select, resolved)) :
    Evaluates compilation draft select resolved := by
  obtain ⟨parts, composed⟩ := exists_parts_of_query compiled
  have joins : resolved.joins = parts.needed := by rw [composed.resolved_eq]
  refine ⟨⟨parts.results, composed.mapM_handles, ?_, fun _ => composed.exists_result⟩,
    composed.map_columns, parts.between, composed.between, ?_⟩
  · intro result member name needed
    exact joins ▸ Parts.mem_needed.mpr (.inl ⟨result, member, needed⟩)
  · exact fun name needed => joins ▸ Parts.mem_needed.mpr (.inr needed)

end Compilation

end SemanticQuery
