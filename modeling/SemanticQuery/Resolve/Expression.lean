import SemanticQuery.Handle
import SemanticQuery.Operation.Compile
import SemanticQuery.Ring.Basic
import SemanticQuery.Settings

/-!
# Handles as SQL expressions

Resolving a handle against a ring gives its expression and the joins that its attributes need.
Declared types of attributes are checked on the way, if the settings ask for it.
-/

namespace SemanticQuery

open Sql

structure Scope where
  ring : Ring
  settings : Settings
  dialect : Dialect
  /-- The returned columns of the subplans that are compiled. -/
  exposed : Entries SubplanId (List String)
  /-- The step that produced each expression. -/
  origins : Entries Handle StepRef

/-- An expression and the joins that it needs. -/
structure Resolved where
  expr : Expr
  joins : List String

namespace DatePart

def sqliteFormat : DatePart → String
  | .year => "%Y"
  | .month => "%Y/%m"
  | .day => "%Y/%m/%d"
  | .onlyMonth => "%m"
  | .onlyDay => "%d"
  | .dayOfWeek => "%w"

def postgresExpr (operand : Expr) : DatePart → Expr
  | .year => .call "to_char" [operand, .constant "YYYY"]
  | .month => .call "to_char" [operand, .constant "YYYY/MM"]
  | .day => .call "to_char" [operand, .constant "YYYY/MM/DD"]
  | .onlyMonth => .call "to_char" [operand, .constant "MM"]
  | .onlyDay => .call "to_char" [operand, .constant "DD"]
  | .dayOfWeek =>
      .cast (.cast (.call "date_part" [.constant "dow", operand]) "INTEGER") "TEXT"

def extract (dialect : Dialect) (part : Option DatePart) (operand : Expr) : Expr :=
  match part, dialect with
  | none, _ => operand
  | some part, .sqlite => .call "strftime" [.constant part.sqliteFormat, operand]
  | some part, .postgres => part.postgresExpr operand

end DatePart

namespace Attribute

/-- Replaces nulls in an attribute's expression, if it asks for that and has a value for them. -/
def replaceNulls (a : Attribute) (operand : Expr) : Expr :=
  match a.nullHandling, a.nullValue with
  | .cast, some value => if value.isNull then operand else .call "COALESCE" [operand, .value value]
  | _, _ => operand

def round (a : Attribute) (dialect : Dialect) (operand : Expr) : Expr :=
  match a.rounding with
  | some digits => Operation.rounded dialect digits operand
  | none => operand

end Attribute

namespace Scope

def field (scope : Scope) (entityName name : String) : Except Error Resolved := do
  let entity ← scope.ring.entity entityName
  let (base, part) := DatePart.split name
  if entity.isIdentifier base then
    match entity.identifiers.head? with
    | some column => .ok ⟨DatePart.extract scope.dialect part (.column entity.table column), []⟩
    | none => .error (.invariant s!"entity {entity.name} has no identifier column")
  else
    let a ← scope.ring.attributeOf entityName base
    let joins ← scope.ring.attributeJoins entityName base
    match a.column? with
    | none => .error (.invariant s!"attribute {entityName}.{base} has no source column")
    | some column =>
        let physical ← scope.ring.physicalColumn a.table column
        let operand := DatePart.extract scope.dialect part (.column physical.table physical.column)
        .ok ⟨a.round scope.dialect (a.replaceNulls operand), joins⟩

/-- The declared types of an attribute; none if it is read through a date part or declares none. -/
def declaredTypes (scope : Scope) (entityName name : String) :
    Except Error (Option (List SemanticType)) := do
  let (base, part) := DatePart.split name
  if part.isSome then .ok none
  else
    let entity ← scope.ring.entity entityName
    if entity.isIdentifier base then .ok (some [.identifier])
    else
      let a ← scope.ring.attributeOf entityName base
      let declared := a.types.filter (· ≠ .anyAttribute)
      .ok (if declared.isEmpty then none else some declared)

def isTyped (operation : Operation) : Bool :=
  match operation.category with
  | .predicate => !operation.isConnective
  | .arithmetic | .analysis => true
  | _ => false

/-- The declared type of an operand that is an attribute fits what its group accepts. -/
def checkOperand (scope : Scope) (operation : Operation) (step : Option StepRef)
    (operand : Operand) (allowed : List SemanticType) : Except Error Unit :=
  match operand with
  | .handle (.field entityName name) =>
      if allowed.contains .anyAttribute then .ok ()
      else do
        match ← scope.declaredTypes entityName name with
        | none => .ok ()
        | some declared =>
            if declared.any allowed.contains then .ok ()
            else .error (.semanticTypeMismatch (step.map StepRef.text) operation.name
              (entityName ++ "//" ++ name) (SemanticType.listing allowed)
              (SemanticType.listing declared))
  | _ => .ok ()

/-- The declared types of all operands fit, if the settings ask for it. -/
def checkTypes (scope : Scope) (operation : Operation) (operands : List Operand) :
    Except Error Unit :=
  if scope.settings.validateTypes && isTyped operation then
    let groups := operation.descriptor.groups
    let step := scope.origins.get? (.expression operation operands)
    -- No list of operands is so long that its length would not fit.
    (operands.zip (ArgumentGroup.assign groups operands.length.toUInt64)).forM fun item =>
      scope.checkOperand operation step item.1 ((groups[item.2]?.map (·.types)).getD [])
  else .ok ()

def apply (scope : Scope) (operation : Operation) (operands : List Resolved) :
    Except Error Resolved := do
  let result ← operation.compile scope.dialect (operands.map (·.expr))
  let joins := operands.flatMap (·.joins)
  if operation.isRounded then
    .ok ⟨Operation.rounded scope.dialect scope.settings.roundingPrecision result, joins⟩
  else .ok ⟨result, joins⟩

def column (scope : Scope) (subplan : SubplanId) (name : String) : Except Error Resolved :=
  if (scope.exposed.get? subplan).any (·.contains name) then .ok ⟨.column subplan.text name, []⟩
  else .error (.columnNotExposed none subplan.text name)

end Scope

mutual

def Handle.resolve (scope : Scope) : Handle → Except Error Resolved
  | .field entity name => scope.field entity name
  | .column subplan name _ => scope.column subplan name
  | .expression operation operands =>
      if operation = .rowNumber then do
        let terms ← Operand.resolveTerms scope operands
        .ok ⟨.rowNumber (terms.map (·.1)), terms.flatMap (·.2)⟩
      else do
        scope.checkTypes operation operands
        let resolved ← Operand.resolveAll scope operands
        scope.apply operation resolved

/-- Resolves operands in order; directions have no expression. -/
def Operand.resolveAll (scope : Scope) : List Operand → Except Error (List Resolved)
  | [] => .ok []
  | .handle h :: rest => do
      let first ← h.resolve scope
      let others ← Operand.resolveAll scope rest
      .ok (first :: others)
  | .literal value :: rest => do
      let others ← Operand.resolveAll scope rest
      .ok (⟨.value value.toValue, []⟩ :: others)
  | .direction _ :: rest => Operand.resolveAll scope rest

/-- Resolves pairs of a handle and a direction as terms of an ordering, each with its joins. -/
def Operand.resolveTerms (scope : Scope) :
    List Operand → Except Error (List (OrderTerm Expr × List String))
  | [] => .ok []
  | .handle h :: .direction direction :: rest => do
      let key ← h.resolve scope
      let others ← Operand.resolveTerms scope rest
      .ok ((⟨key.expr, direction, scope.settings.nullsLast⟩, key.joins) :: others)
  | _ => .error (.invariant "rownum operands are not (field, direction) pairs")

end

end SemanticQuery
