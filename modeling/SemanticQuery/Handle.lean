import SemanticQuery.Plan.Subplan

/-!
# Handles

A handle names what a column holds, independent of any SQL dialect: an attribute of an entity, an
operation on operands, or a column of another subplan. Every handle has a column name, by which it
is known in its subplan.
-/

namespace SemanticQuery

mutual

inductive Handle where
  /-- An attribute read straight off an entity. -/
  | field (entity name : String)
  | expression (operation : Operation) (operands : List Operand)
  /-- A column of another subplan, with the handle that produced it there. -/
  | column (subplan : SubplanId) (name : String) (origin : Handle)

inductive Operand where
  | handle (handle : Handle)
  | literal (literal : Literal)
  | direction (direction : Direction)

end

mutual

def Handle.decEq : (a b : Handle) → Decidable (a = b)
  | .field entity name, .field entity' name' =>
      decidable_of_iff (entity = entity' ∧ name = name') (by simp)
  | .expression operation operands, .expression operation' operands' =>
      have := Operand.decEqList operands operands'
      decidable_of_iff (operation = operation' ∧ operands = operands') (by simp)
  | .column subplan name origin, .column subplan' name' origin' =>
      have := Handle.decEq origin origin'
      decidable_of_iff (subplan = subplan' ∧ name = name' ∧ origin = origin') (by simp)
  | .field .., .expression .. | .field .., .column .. | .expression .., .field ..
  | .expression .., .column .. | .column .., .field .. | .column .., .expression .. =>
      isFalse nofun

def Operand.decEq : (a b : Operand) → Decidable (a = b)
  | .handle h, .handle h' =>
      have := Handle.decEq h h'
      decidable_of_iff (h = h') (by simp)
  | .literal l, .literal l' => decidable_of_iff (l = l') (by simp)
  | .direction d, .direction d' => decidable_of_iff (d = d') (by simp)
  | .handle _, .literal _ | .handle _, .direction _ | .literal _, .handle _
  | .literal _, .direction _ | .direction _, .handle _ | .direction _, .literal _ => isFalse nofun

def Operand.decEqList : (as bs : List Operand) → Decidable (as = bs)
  | [], [] => isTrue rfl
  | a :: as, b :: bs =>
      have := Operand.decEq a b
      have := Operand.decEqList as bs
      decidable_of_iff (a = b ∧ as = bs) (by simp)
  | [], _ :: _ | _ :: _, [] => isFalse nofun

end

instance : DecidableEq Handle := Handle.decEq

instance : DecidableEq Operand := Operand.decEq

mutual

/-- The name of a handle's column. Picking one value of a group does not change the name. -/
def Handle.columnName : Handle → String
  | .field entity name => entity ++ "//" ++ name
  | .expression .getOne operands => (Operand.names operands).headD ""
  | .expression operation operands =>
      operation.name ++ "(" ++ String.intercalate "," (Operand.names operands) ++ ")"
  | .column subplan name _ => subplan.text ++ "//" ++ name

def Operand.name : Operand → String
  | .handle h => h.columnName
  | .literal l => l.content
  | .direction d => d.name

def Operand.names : List Operand → List String
  | [] => []
  | operand :: rest => operand.name :: Operand.names rest

end

def Handle.isAnalysis : Handle → Bool
  | .expression operation _ => operation.isAnalysis
  | _ => false

mutual

/-- Whether evaluating a handle needs an aggregate in its own subplan. An expression does when an
operand is an analysis or needs one; connectives only ask their predicates. Columns of other
subplans need none. -/
def Handle.containsAggregate : Handle → Bool
  | .expression operation operands => Operand.anyAggregate operation.isConnective operands
  | .field .. | .column .. => false

def Operand.isAggregate (connective : Bool) : Operand → Bool
  | .handle h => (!connective && h.isAnalysis) || h.containsAggregate
  | .literal _ | .direction _ => false

def Operand.anyAggregate (connective : Bool) : List Operand → Bool
  | [] => false
  | operand :: rest => operand.isAggregate connective || Operand.anyAggregate connective rest

end

/-- The attribute that a value comes from, and whether it was counted on the way. -/
structure BaseAttribute where
  entity : String
  name : String
  counted : Bool
  deriving DecidableEq

mutual

/-- The attribute that a handle is based on: analyses and arithmetic follow their first handle, a
column of another subplan follows its origin. -/
def Handle.base? : Handle → Option BaseAttribute
  | .field entity name => some ⟨entity, name, false⟩
  | .expression operation operands =>
      if operation.isAnalysis || operation.isArithmetic then
        (Operand.firstBase? operands).map fun base =>
          { base with counted := base.counted || operation.isCount }
      else none
  | .column _ _ origin => origin.base?

def Operand.firstBase? : List Operand → Option BaseAttribute
  | [] => none
  | .handle h :: _ => h.base?
  | .literal _ :: rest => Operand.firstBase? rest
  | .direction _ :: rest => Operand.firstBase? rest

end

end SemanticQuery
