import SemanticQuery.Proofs.Ring.Complete
import SemanticQuery.Proofs.Sql.Columns
import SemanticQuery.Resolve.Query
import SemanticQuery.Result
import SemanticQuery.Ring.Load

/-!
# Date parts of names

A field asks for a date part by the end of its name.  Labels and declared types belong to the
attribute that is declared under the rest of the name.  The column is looked up under what is left
when one more date part is taken off, and the joins when two more are; all agree if the rest of the
name ends in no date part.
-/

namespace SemanticQuery

open Sql

/-! ## Names -/

namespace DatePart

def base (name : String) : String :=
  (split name).1

def part? (name : String) : Option DatePart :=
  (split name).2

/-- Names in front of which the date part is put that an attribute is read through. -/
def labelled (part : Option DatePart) (names : NamePair) : NamePair :=
  match part with
  | none => names
  | some part => ⟨part.label ++ " " ++ names.singular, part.label ++ " " ++ names.plural⟩

/-- A name that asks for no date part stays whole. -/
theorem base_eq_self {name : String} (plain : part? name = none) : base name = name := by
  have whole : split name = (name, none) ∨ (split name).2.isSome = true := by
    unfold split
    split
    · split
      · split
        · exact .inl rfl
        · exact .inr rfl
      · exact .inl rfl
    · exact .inl rfl
  rcases whole with whole | part
  · rw [base, whole]
  · rw [← part?, plain] at part
    cases part

end DatePart

/-! ## Attributes -/

namespace Attribute

def expr? (a : Attribute) (dialect : Dialect) (part : Option DatePart) : Option Expr :=
  a.column?.map fun column =>
    a.round dialect (a.replaceNulls (DatePart.extract dialect part (.column a.table column)))

def joinsFrom (a : Attribute) (entity : Entity) : NameSet :=
  if a.table = entity.table then [] else NameSet.ofList a.joins

def comparedTypes? (a : Attribute) : Option (List SemanticType) :=
  let declared := a.types.filter (· ≠ .anyAttribute)
  if declared.isEmpty then none else some declared

def unitsOf (a : Attribute) (entity : Entity) (counted : Bool) (part : Option DatePart) : NamePair :=
  a.units.getD
    (if counted && a.hasType .identifier then entity.displayName
    else DatePart.labelled part a.displayName)

end Attribute

def Entity.identifierExpr? (entity : Entity) (dialect : Dialect) (part : Option DatePart) :
    Option Expr :=
  entity.identifiers.head?.map fun column =>
    DatePart.extract dialect part (.column entity.table column)

/-- A declared name is not that of the identifier. -/
theorem Entity.isIdentifier_eq_false {entity : Entity} {name : String}
    (declared : (entity.declared? name).isSome = true) : entity.isIdentifier name = false := by
  rw [isIdentifier, Bool.and_eq_false_iff, decide_eq_false_iff_not]
  by_cases isId : name = "id"
  · rw [isId] at declared
    exact .inr (by rw [Option.isNone_eq_false_iff]; exact declared)
  · exact .inl isId

namespace Ring

variable {ring : Ring} {entityName : String} {entity : Entity}

theorem attributeOf_eq (known : ring.entity? entityName = some entity) (name : String) :
    ring.attributeOf entityName name =
      match entity.declared? (DatePart.base name) with
      | some a => .ok a
      | none => .error (.unknownAttribute entityName name) := by
  rw [attributeOf, entity_eq_ok_iff.mpr known]
  rfl

/-- The joins of a field are looked up under its name without two date parts. -/
theorem attributeJoins_eq (known : ring.entity? entityName = some entity) (name : String) :
    ring.attributeJoins entityName name =
      if entity.isIdentifier (DatePart.base name) then .ok []
      else
        match entity.declared? (DatePart.base (DatePart.base name)) with
        | some a => .ok (a.joinsFrom entity)
        | none => .error (.unknownAttribute entityName (DatePart.base name)) := by
  rw [attributeJoins, entity_eq_ok_iff.mpr known]
  change (if entity.isIdentifier (DatePart.base name) then .ok [] else
    ring.attributeOf entityName (DatePart.base name) >>= fun found =>
      if found.table = entity.table then .ok [] else .ok (NameSet.ofList found.joins)) = _
  rw [attributeOf_eq known]
  refine if_congr Iff.rfl rfl ?_
  cases entity.declared? (DatePart.base (DatePart.base name)) with
  | none => rfl
  | some a => exact (apply_ite Except.ok _ _ _).symm

end Ring

/-! ## Fields -/

namespace Scope

variable {scope : Scope} {entityName : String} {entity : Entity}

theorem field_eq_of_identifier (known : scope.ring.entity? entityName = some entity) {name : String}
    (identifier : entity.isIdentifier (DatePart.base name) = true) {column : String}
    (isColumn : entity.identifiers.head? = some column) :
    scope.field entityName name = .ok ⟨DatePart.extract scope.dialect (DatePart.part? name)
      (.column entity.table column), []⟩ := by
  rw [field, Ring.entity_eq_ok_iff.mpr known]
  refine (if_pos identifier).trans ?_
  rw [isColumn]
  rfl

theorem field_eq_of_attribute (known : scope.ring.entity? entityName = some entity) {name : String}
    (noIdentifier : entity.isIdentifier (DatePart.base name) = false) :
    scope.field entityName name =
      (scope.ring.attributeOf entityName (DatePart.base name)).bind fun a =>
        (scope.ring.attributeJoins entityName (DatePart.base name)).bind fun joins =>
          match a.column? with
          | none => .error (.invariant
              s!"attribute {entityName}.{DatePart.base name} has no source column")
          | some column => (scope.ring.physicalColumn a.table column).bind fun physical =>
              .ok ⟨a.round scope.dialect (a.replaceNulls (DatePart.extract scope.dialect
                (DatePart.part? name) (.column physical.table physical.column))), joins⟩ := by
  rw [field, Ring.entity_eq_ok_iff.mpr known]
  exact if_neg (ne_true_of_eq_false noIdentifier)

/-- What a field of a complete ring resolves to: the identifier, one attribute with the joins of
another, or nothing if one of the two is not declared. -/
theorem field_cases (complete : scope.ring.IsComplete)
    (known : scope.ring.entity? entityName = some entity) (name : String) :
    (entity.isIdentifier (DatePart.base name) = true ∧
      ∃ expr, entity.identifierExpr? scope.dialect (DatePart.part? name) = some expr ∧
        scope.field entityName name = .ok ⟨expr, []⟩) ∨
    (entity.isIdentifier (DatePart.base name) = false ∧
      ∃ read linked expr,
        entity.declared? (DatePart.base (DatePart.base name)) = some read ∧
        entity.declared? (DatePart.base (DatePart.base (DatePart.base name))) = some linked ∧
        read.expr? scope.dialect (DatePart.part? name) = some expr ∧
        scope.field entityName name = .ok ⟨expr, linked.joinsFrom entity⟩) ∨
    (entity.isIdentifier (DatePart.base name) = false ∧
      ∃ missing, (missing = DatePart.base name ∨ missing = DatePart.base (DatePart.base name)) ∧
        entity.declared? (DatePart.base missing) = none ∧
        scope.field entityName name = .error (.unknownAttribute entityName missing)) := by
  have isComplete := complete.entities entity (List.mem_of_find?_eq_some known)
  cases identifier : entity.isIdentifier (DatePart.base name) with
  | true =>
      obtain ⟨column, isColumn⟩ : ∃ column, entity.identifiers.head? = some column :=
        Option.isSome_iff_exists.mp (List.isSome_head?.mpr isComplete.identifiers)
      exact .inl ⟨rfl, _, congrArg (Option.map _) isColumn,
        field_eq_of_identifier known identifier isColumn⟩
  | false =>
      refine .inr ?_
      rw [field_eq_of_attribute known identifier, Ring.attributeOf_eq known,
        Ring.attributeJoins_eq known]
      cases isRead : entity.declared? (DatePart.base (DatePart.base name)) with
      | none => exact .inr ⟨rfl, _, .inl rfl, isRead, rfl⟩
      | some read =>
          rw [Entity.isIdentifier_eq_false (Option.isSome_of_eq_some isRead)]
          cases isLinked :
              entity.declared? (DatePart.base (DatePart.base (DatePart.base name))) with
          | none => exact .inr ⟨rfl, _, .inr rfl, isLinked, rfl⟩
          | some linked =>
              have attributeComplete := isComplete.attributes read
                (List.mem_of_find?_eq_some isRead)
              obtain ⟨column, isColumn⟩ : ∃ column, read.column? = some column :=
                Option.isSome_iff_exists.mp (List.isSome_head?.mpr attributeComplete.columns)
              refine .inl ⟨rfl, read, linked, _, rfl, rfl, congrArg (Option.map _) isColumn, ?_⟩
              simp only [Except.bind, isColumn, Ring.physicalColumn_eq attributeComplete.table column]
              rfl

/-- How the date parts of a field's name are taken off, on each way to its attributes. -/
structure StripsDateParts (scope : Scope) (entityName : String) (entity : Entity)
    (name : String) : Prop where
  /-- A field resolves if its base is the identifier, or if the attributes are declared that remain
  when one and when two more date parts are taken off. -/
  resolves_iff : (∃ resolved, (Handle.field entityName name).resolve scope = .ok resolved) ↔
    entity.isIdentifier (DatePart.base name) = true ∨
    ((entity.declared? (DatePart.base (DatePart.base name))).isSome = true ∧
      (entity.declared? (DatePart.base (DatePart.base (DatePart.base name)))).isSome = true)
  identifier : entity.isIdentifier (DatePart.base name) = true →
    ∃ expr, entity.identifierExpr? scope.dialect (DatePart.part? name) = some expr ∧
      (Handle.field entityName name).resolve scope = .ok ⟨expr, []⟩
  /-- The column is that of the first of the two attributes, and the joins are those of the other. -/
  reads : entity.isIdentifier (DatePart.base name) = false →
    ∀ resolved, (Handle.field entityName name).resolve scope = .ok resolved →
      ∃ read linked, entity.declared? (DatePart.base (DatePart.base name)) = some read ∧
        entity.declared? (DatePart.base (DatePart.base (DatePart.base name))) = some linked ∧
        read.expr? scope.dialect (DatePart.part? name) = some resolved.expr ∧
        resolved.joins = linked.joinsFrom entity
  /-- Units are those of the attribute that is declared under the base. -/
  units : ∀ handle counted, Handle.base? handle = some ⟨entityName, name, counted⟩ →
    handle.units scope.ring =
      ((entity.declared? (DatePart.base name)).map fun a =>
        a.unitsOf entity counted (DatePart.part? name)).getD entity.displayName
  /-- So are the declared types, which are not asked for when there is a date part. -/
  types : ∀ a, entity.declared? (DatePart.base name) = some a →
    scope.declaredTypes entityName name =
      .ok (if (DatePart.part? name).isSome then none else a.comparedTypes?)
  /-- If the base asks for no date part itself, it names the one attribute of all of them. -/
  once : DatePart.part? (DatePart.base name) = none →
    ((∃ resolved, (Handle.field entityName name).resolve scope = .ok resolved) ↔
      entity.isIdentifier (DatePart.base name) = true ∨
      (entity.declared? (DatePart.base name)).isSome = true) ∧
    ∀ a, entity.declared? (DatePart.base name) = some a →
      ∃ resolved, (Handle.field entityName name).resolve scope = .ok resolved ∧
        a.expr? scope.dialect (DatePart.part? name) = some resolved.expr ∧
        resolved.joins = a.joinsFrom entity ∧
        (Handle.field entityName name).units scope.ring =
          a.unitsOf entity false (DatePart.part? name)

theorem units_eq (known : scope.ring.entity? entityName = some entity) {name : String}
    {handle : Handle} {counted : Bool} (based : handle.base? = some ⟨entityName, name, counted⟩) :
    handle.units scope.ring =
      ((entity.declared? (DatePart.base name)).map fun a =>
        a.unitsOf entity counted (DatePart.part? name)).getD entity.displayName := by
  unfold Handle.units
  simp only [based, known, Entity.attribute?, ← DatePart.base.eq_1, ← DatePart.part?.eq_1]
  cases entity.declared? (DatePart.base name) with
  | none => rfl
  | some a =>
      simp only [Option.map_some, Option.getD_some, Attribute.unitsOf]
      cases a.units with
      | some units => rfl
      | none => rfl

theorem declaredTypes_eq (known : scope.ring.entity? entityName = some entity) {name : String}
    {a : Attribute} (declared : entity.declared? (DatePart.base name) = some a) :
    scope.declaredTypes entityName name =
      .ok (if (DatePart.part? name).isSome then none else a.comparedTypes?) := by
  cases part : DatePart.part? name with
  | some word => exact if_pos (Option.isSome_of_eq_some part)
  | none =>
      have again : entity.declared? (DatePart.base (DatePart.base name)) = some a := by
        rw [DatePart.base_eq_self part] at declared ⊢
        rw [DatePart.base_eq_self part, declared]
      have noIdentifier :=
        ne_true_of_eq_false (Entity.isIdentifier_eq_false (Option.isSome_of_eq_some declared))
      have types_eq : scope.declaredTypes entityName name =
          (scope.ring.attributeOf entityName (DatePart.base name)).bind fun found =>
            .ok found.comparedTypes? := by
        refine (if_neg (ne_true_of_eq_false (congrArg Option.isSome part))).trans ?_
        rw [Ring.entity_eq_ok_iff.mpr known]
        exact if_neg noIdentifier
      rw [types_eq, Ring.attributeOf_eq known, again]
      rfl

theorem exists_field_iff (complete : scope.ring.IsComplete)
    (known : scope.ring.entity? entityName = some entity) (name : String) :
    (∃ resolved, scope.field entityName name = .ok resolved) ↔
      entity.isIdentifier (DatePart.base name) = true ∨
      ((entity.declared? (DatePart.base (DatePart.base name))).isSome = true ∧
        (entity.declared? (DatePart.base (DatePart.base (DatePart.base name)))).isSome = true) := by
  rcases field_cases complete known name with ⟨identifier, expr, -, found⟩ |
    ⟨-, read, linked, expr, isRead, isLinked, -, found⟩ | ⟨noIdentifier, missing, isOne, none, failed⟩
  · exact iff_of_true ⟨_, found⟩ (.inl identifier)
  · exact iff_of_true ⟨_, found⟩
      (.inr ⟨Option.isSome_of_eq_some isRead, Option.isSome_of_eq_some isLinked⟩)
  · refine iff_of_false ?_ ?_
    · rintro ⟨resolved, found⟩
      rw [failed] at found
      cases found
    · rintro (identifier | ⟨isRead, isLinked⟩)
      · rw [noIdentifier] at identifier
        cases identifier
      · rcases isOne with rfl | rfl
        · rw [none] at isRead
          cases isRead
        · rw [none] at isLinked
          cases isLinked

theorem field_eq_of_isIdentifier (complete : scope.ring.IsComplete)
    (known : scope.ring.entity? entityName = some entity) {name : String}
    (identifier : entity.isIdentifier (DatePart.base name) = true) :
    ∃ expr, entity.identifierExpr? scope.dialect (DatePart.part? name) = some expr ∧
      scope.field entityName name = .ok ⟨expr, []⟩ := by
  rcases field_cases complete known name with ⟨-, found⟩ | ⟨noIdentifier, -⟩ | ⟨noIdentifier, -⟩
  · exact found
  · rw [noIdentifier] at identifier
    cases identifier
  · rw [noIdentifier] at identifier
    cases identifier

theorem reads_of_field (complete : scope.ring.IsComplete)
    (known : scope.ring.entity? entityName = some entity) {name : String}
    (noIdentifier : entity.isIdentifier (DatePart.base name) = false) {resolved : Resolved}
    (found : scope.field entityName name = .ok resolved) :
    ∃ read linked, entity.declared? (DatePart.base (DatePart.base name)) = some read ∧
      entity.declared? (DatePart.base (DatePart.base (DatePart.base name))) = some linked ∧
      read.expr? scope.dialect (DatePart.part? name) = some resolved.expr ∧
      resolved.joins = linked.joinsFrom entity := by
  rcases field_cases complete known name with ⟨identifier, -⟩ |
    ⟨-, read, linked, expr, isRead, isLinked, isExpr, same⟩ | ⟨-, missing, -, -, failed⟩
  · rw [noIdentifier] at identifier
    cases identifier
  · rw [found] at same
    cases same
    exact ⟨read, linked, isRead, isLinked, isExpr, rfl⟩
  · rw [failed] at found
    cases found

/-- How names are taken apart over an accepted ring. -/
theorem stripsDateParts_of_ofDocument {document : Document}
    (loads : Ring.ofDocument document = .ok scope.ring)
    (known : scope.ring.entity? entityName = some entity) (name : String) :
    scope.StripsDateParts entityName entity name := by
  have complete := Ring.isComplete_of_ofDocument loads
  have resolves_iff := exists_field_iff complete known name
  have resolve_eq : (Handle.field entityName name).resolve scope = scope.field entityName name := by
    rw [Handle.resolve]
  constructor
  · rw [resolve_eq]
    exact resolves_iff
  · rw [resolve_eq]
    exact field_eq_of_isIdentifier complete known
  · rw [resolve_eq]
    intro noIdentifier resolved found
    exact reads_of_field complete known noIdentifier found
  · intro handle counted based
    exact units_eq known based
  · intro a declared
    exact declaredTypes_eq known declared
  · rw [resolve_eq]
    intro plain
    have same := DatePart.base_eq_self plain
    rw [same, same, and_self] at resolves_iff
    refine ⟨resolves_iff, ?_⟩
    intro a declared
    have isSome := Option.isSome_of_eq_some declared
    obtain ⟨resolved, found⟩ := resolves_iff.mpr (.inr isSome)
    obtain ⟨read, linked, isRead, isLinked, isExpr, joins⟩ :=
      reads_of_field complete known (Entity.isIdentifier_eq_false isSome) found
    rw [same] at isRead isLinked
    rw [same] at isLinked
    rw [declared] at isRead isLinked
    cases isRead
    cases isLinked
    refine ⟨resolved, found, isExpr, joins, ?_⟩
    rw [units_eq known rfl, declared]
    rfl

end Scope

/-- A document of employees with the date of hiring, and a year of their contract that is declared
under a name which ends in a date part. -/
def hiringDocument : Document where
  name := "hiring"
  source := {
    kind := "sqlite"
    connection := none
    tables := ["employee", "contract"]
    joins := [
      { name := "employee_contract", source := "employee", target := "contract",
        path := [["employee.id", "contract.employee_id"]], bidirectional := false }] }
  entities := [
    { name := "Employee"
      names := ["employee", "employees"]
      table := "employee"
      identifiers := ["id"]
      attributes := [
        ("hired", column "employee" "hired_on" []),
        ("hired:year", column "contract" "hiring_year" ["employee_contract"])] }]
  relationships := []
where
  column (table name : String) (joins : List String) : Document.AttributeEntry :=
    { names := [name, name], types := ["datetime"], units := none,
      source := { table, columns := [name], joins },
      nullHandling := none, nullValue := none, rounding := none }

def Ring.scope (ring : Ring) : Scope :=
  ⟨ring, {}, ring.dialect, [], []⟩

/-- The year of the date of hiring, although a year is declared under the whole name. -/
theorem Scope.stripsDateParts_hired :
    ∃ ring entity, Ring.ofDocument hiringDocument = .ok ring ∧
      ring.entity? "Employee" = some entity ∧ (entity.declared? "hired:year").isSome = true ∧
      (∃ resolved, (Handle.field "Employee" "hired:year").resolve ring.scope = .ok resolved ∧
        resolved.expr.columns = [⟨"employee", "hired_on"⟩]) ∧
      ring.scope.StripsDateParts "Employee" entity "hired:year" := by
  have runs : (Ring.ofDocument hiringDocument >>= fun ring =>
      ring.entity "Employee" >>= fun entity =>
        ((Handle.field "Employee" "hired:year").resolve ring.scope).map fun resolved =>
          ((entity.declared? "hired:year").isSome, resolved.expr.columns)) =
      .ok (true, [⟨"employee", "hired_on"⟩]) := by
    decide +kernel
  obtain ⟨ring, loads, runs⟩ := bind_eq_ok_iff.mp runs
  obtain ⟨entity, known, runs⟩ := bind_eq_ok_iff.mp runs
  obtain ⟨resolved, resolves, same⟩ := map_eq_ok_iff.mp runs
  obtain ⟨declared, columns⟩ := Prod.mk.inj same
  rw [Ring.entity_eq_ok_iff] at known
  exact ⟨ring, entity, loads, known, declared, ⟨resolved, resolves, columns⟩,
    Scope.stripsDateParts_of_ofDocument loads known _⟩

/-- A field whose base is declared reads the column of another attribute and lacks the joins of the
declared one, which gives its units; and a field resolves whose base is neither declared nor the
identifier. -/
theorem exists_field_stripped_again :
    ∃ ring entity, Ring.ofDocument hiringDocument = .ok ring ∧
      ring.entity? "Employee" = some entity ∧
      (∃ a resolved, entity.declared? (DatePart.base "hired:year:month") = some a ∧
        (Handle.field "Employee" "hired:year:month").resolve ring.scope = .ok resolved ∧
        (a.table, a.column?, a.joinsFrom entity) =
          ("contract", some "hiring_year", ["employee_contract"]) ∧
        (resolved.expr.columns, resolved.joins) = ([⟨"employee", "hired_on"⟩], []) ∧
        (Handle.field "Employee" "hired:year:month").units ring =
          DatePart.labelled (some .month) ⟨"hiring_year", "hiring_year"⟩) ∧
      ∃ resolved, (Handle.field "Employee" "hired:month:year").resolve ring.scope = .ok resolved ∧
        entity.isIdentifier (DatePart.base "hired:month:year") = false ∧
        entity.declared? (DatePart.base "hired:month:year") = none := by
  have runs : (Ring.ofDocument hiringDocument >>= fun ring =>
      ring.entity "Employee" >>= fun entity =>
        ring.attributeOf "Employee" "hired:year:month" >>= fun a =>
          ((Handle.field "Employee" "hired:year:month").resolve ring.scope).map fun resolved =>
            decide ((a.table, a.column?, a.joinsFrom entity) =
                ("contract", some "hiring_year", ["employee_contract"]) ∧
              (resolved.expr.columns, resolved.joins) = ([⟨"employee", "hired_on"⟩], []) ∧
              (Handle.field "Employee" "hired:year:month").units ring =
                DatePart.labelled (some .month) ⟨"hiring_year", "hiring_year"⟩)) = .ok true := by
    decide +kernel
  have runsAgain : (Ring.ofDocument hiringDocument >>= fun ring =>
      ring.entity "Employee" >>= fun entity =>
        ((Handle.field "Employee" "hired:month:year").resolve ring.scope).map fun _ =>
          (entity.isIdentifier (DatePart.base "hired:month:year"),
            entity.declared? (DatePart.base "hired:month:year"))) = .ok (false, none) := by
    decide +kernel
  obtain ⟨ring, loads, runs⟩ := bind_eq_ok_iff.mp runs
  obtain ⟨entity, known, runs⟩ := bind_eq_ok_iff.mp runs
  obtain ⟨a, declared, runs⟩ := bind_eq_ok_iff.mp runs
  obtain ⟨resolved, resolves, holds⟩ := map_eq_ok_iff.mp runs
  obtain ⟨stored, reads, units⟩ := of_decide_eq_true holds
  obtain ⟨sameRing, sameLoads, runsAgain⟩ := bind_eq_ok_iff.mp runsAgain
  obtain rfl : ring = sameRing := Except.ok.inj (loads.symm.trans sameLoads)
  obtain ⟨same, sameKnown, runsAgain⟩ := bind_eq_ok_iff.mp runsAgain
  obtain rfl : entity = same := Except.ok.inj (known.symm.trans sameKnown)
  obtain ⟨other, otherResolves, undeclared⟩ := map_eq_ok_iff.mp runsAgain
  obtain ⟨noIdentifier, undeclared⟩ := Prod.mk.inj undeclared
  rw [Ring.entity_eq_ok_iff] at known
  exact ⟨ring, entity, loads, known,
    ⟨a, resolved, Ring.attributeOf_eq_ok known declared, resolves, stored, reads, units⟩,
    other, otherResolves, noIdentifier, undeclared⟩

end SemanticQuery
