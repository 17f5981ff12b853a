import SemanticQuery.Handle

/-!
# Drafts

A draft says what the SELECT of one subplan consists of, without SQL: the columns it evaluates and
returns, how it filters, groups, sorts and limits, and where it reads from.
-/

namespace SemanticQuery

/-- What a subplan reads: an entity or another subplan. -/
inductive Source where
  | entity (name : String)
  | subplan (id : SubplanId)
  deriving DecidableEq

namespace Source

def text : Source → String
  | .entity name => name
  | .subplan id => id.text

def entity? : Source → Option String
  | .entity name => some name
  | .subplan _ => none

def subplan? : Source → Option SubplanId
  | .subplan id => some id
  | .entity _ => none

end Source

structure SortKey where
  column : String
  direction : Direction
  deriving DecidableEq

structure Draft where
  id : SubplanId
  /-- The returned columns, in order. -/
  select : List String := []
  /-- Every column that is evaluated, by name. -/
  fields : Entries String Handle := []
  groupBy : List String := []
  filter : Option Handle := none
  having : Option Handle := none
  sort : List SortKey := []
  limit : Option Nat := none
  /-- The joins that are needed, known once the draft is resolved. -/
  joins : NameSet := []
  sources : List Source := []
  /-- The step that produced each expression. -/
  origins : Entries Handle StepRef := []
  deriving DecidableEq

namespace Draft

/-- Makes a handle's column known; a column of that name that is known stays as it is. -/
def addField (draft : Draft) (handle : Handle) : Draft :=
  { draft with fields := draft.fields.putNew handle.columnName handle }

def addSelect (draft : Draft) (column : String) : Draft :=
  { draft with select := addNew column draft.select }

def addGroupBy (draft : Draft) (column : String) : Draft :=
  { draft with groupBy := addNew column draft.groupBy }

def addSource (draft : Draft) (source : Source) : Draft :=
  { draft with sources := addNew source draft.sources }

/-- Notes the step that produced an expression, unless one is noted. -/
def addOrigin (draft : Draft) (handle : Handle) (step : StepRef) : Draft :=
  { draft with origins := draft.origins.putNew handle step }

def returnField (draft : Draft) (handle : Handle) : Draft :=
  (draft.addField handle).addSelect handle.columnName

def groupByField (draft : Draft) (handle : Handle) : Draft :=
  (draft.addField handle).addGroupBy handle.columnName

/-- Evaluates a handle and sorts by its column, after the keys that are there. -/
def sortByField (draft : Draft) (key : Handle × Direction) : Draft :=
  let draft := draft.addField key.1
  { draft with sort := draft.sort ++ [⟨key.1.columnName, key.2⟩] }

def entitySources (draft : Draft) : List String :=
  draft.sources.filterMap Source.entity?

def subplanSources (draft : Draft) : List SubplanId :=
  draft.sources.filterMap Source.subplan?

def exposes (draft : Draft) (column : String) : Bool :=
  column ∈ draft.select

end Draft

end SemanticQuery
