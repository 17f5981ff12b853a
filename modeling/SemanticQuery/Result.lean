import SemanticQuery.Compiled

/-!
# Results

The rows that a database returns, labelled with the columns and units of the query.
-/

namespace SemanticQuery

/-- The units of a handle: those declared for the attribute it is based on; the name of the entity
for a counted identifier; otherwise the name of the attribute, after the date part it is read
through. -/
def Handle.units (ring : Ring) (handle : Handle) : NamePair :=
  match handle.base? with
  | none => .empty
  | some base =>
      match ring.entity? base.entity with
      | none => .empty
      | some entity =>
          match entity.attribute? base.name with
          | none => entity.displayName
          | some a =>
              match a.units with
              | some units => units
              | none =>
                  if base.counted && a.hasType .identifier then entity.displayName
                  else
                    match (DatePart.split base.name).2 with
                    | none => a.displayName
                    | some part =>
                        ⟨part.label ++ " " ++ a.displayName.singular,
                          part.label ++ " " ++ a.displayName.plural⟩

def Draft.units (ring : Ring) (draft : Draft) : List NamePair :=
  draft.select.map fun column =>
    match draft.fields.get? column with
    | some handle => handle.units ring
    | none => .empty

structure Rows where
  columnNames : List String
  rows : List (List Value)

abbrev Session := Sql.Statement → Except Error Rows

structure QueryResult where
  rows : List (List Value)
  columnNames : List String
  units : List NamePair

namespace QueryResult

def ofRows (ring : Ring) (draft : Draft) (rows : Rows) : QueryResult :=
  ⟨rows.rows, draft.select, draft.units ring⟩

def toJson (result : QueryResult) : Json :=
  .object [
    ("row_count", .int result.rows.length),
    ("rows", .array (result.rows.map fun row => .array (row.map Value.toJson))),
    ("column_names", .array (result.columnNames.map .string)),
    ("units", .array (result.units.map fun pair =>
      .array [.string pair.singular, .string pair.plural]))]

end QueryResult

def Compiled.run (compiled : Compiled) (ring : Ring) (session : Session) :
    Except Error QueryResult := do
  let rows ← session compiled.statement
  let draft ← compiled.outermost
  .ok (.ofRows ring draft rows)

end SemanticQuery
