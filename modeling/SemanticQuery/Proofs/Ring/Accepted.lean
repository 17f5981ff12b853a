import SemanticQuery.Ring.Load

/-!
# Joins of accepted rings

A ring is accepted if no problem was noted.  Then every join has column pairs, and each pair goes
from the join's source table to its target table.
-/

namespace SemanticQuery

/-! ## What is loaded without a problem -/

namespace Loaded

variable {α β : Type} {property : α → Prop} {loaded : Loaded α}

/-- As long as there is no problem all that was loaded has a property. -/
def AreAll (property : α → Prop) (loaded : Loaded α) : Prop :=
  loaded.problems = [] → ∀ item ∈ loaded.items, property item

theorem AreAll.of_problem (items : List α) (problems : List String) (problem : String) :
    AreAll property ⟨items, problems ++ [problem]⟩ := by
  intro noProblem
  simp at noProblem

theorem AreAll.append (all : loaded.AreAll property) {items : List α} {problems : List String}
    (new : problems = [] → ∀ item ∈ items, property item) :
    AreAll property ⟨loaded.items ++ items, loaded.problems ++ problems⟩ := by
  intro noProblem item member
  obtain ⟨earlier, own⟩ := List.append_eq_nil_iff.mp noProblem
  rcases List.mem_append.mp member with there | added
  · exact all earlier item there
  · exact new own item added

theorem areAll_foldl {load : Loaded α → β → Loaded α}
    (step : ∀ {loaded : Loaded α}, loaded.AreAll property → ∀ entry,
      (load loaded entry).AreAll property)
    (entries : List β) : (entries.foldl load ⟨[], []⟩).AreAll property :=
  List.foldlRecOn entries load (fun _ => nofun) fun _ all entry _ => step all entry

end Loaded

/-! ## Joins -/

def Join.HasEnd (join : Join) (table : String) : Prop :=
  table = join.sourceTable ∨ table = join.targetTable

instance (join : Join) (table : String) : Decidable (join.HasEnd table) :=
  inferInstanceAs (Decidable (_ ∨ _))

/-- A join has column pairs, all from its source table to its target table. -/
structure Join.IsProper (join : Join) : Prop where
  paired : join.path ≠ []
  ends : ∀ pair ∈ join.path,
    pair.source.table = join.sourceTable ∧ pair.target.table = join.targetTable

namespace Document.JoinEntry

variable {entry : JoinEntry}

theorem ends_of_columns {pair : List String} {columns : JoinColumns}
    (read : entry.columns pair = .ok columns) :
    columns.source.table = entry.source ∧ columns.target.table = entry.target := by
  unfold JoinEntry.columns at read
  split at read
  · split at read
    · split at read
      · cases read
      · rename_i noProblem
        cases read
        rwa [not_or, Decidable.not_not, Decidable.not_not] at noProblem
    · cases read
  · cases read

/-- A join whose entry has no problem is proper. -/
theorem isProper_of_join? {tables : NameSet} {join : Join} (built : entry.join? = some join)
    (noProblem : entry.problems tables = []) : join.IsProper := by
  unfold join? at built
  split at built
  · cases built
  · rename_i filled
    cases built
    constructor
    · rw [problems, if_neg filled, List.append_eq_nil_iff] at noProblem
      obtain ⟨first, rest, whole⟩ := List.exists_cons_of_ne_nil (List.isEmpty_eq_false_iff.mp
        (Bool.eq_false_iff.mpr filled))
      -- The first pair was read, or it would be a problem.
      have isRead : entry.columnProblem? first = none := by
        rw [whole] at noProblem
        exact List.filterMap_eq_nil_iff.mp noProblem.2 first List.mem_cons_self
      unfold columnProblem? at isRead
      split at isRead
      · rename_i columns read
        simp [whole, read, Except.toOption]
      · cases isRead
    · intro columns member
      obtain ⟨pair, -, read⟩ := List.mem_filterMap.mp member
      cases outcome : entry.columns pair with
      | error problem =>
          rw [outcome] at read
          cases read
      | ok found =>
          rw [outcome] at read
          cases read
          exact ends_of_columns outcome

/-- As long as there is no problem the joins that were loaded are proper. -/
theorem areAll_load {tables : NameSet} {loaded : Loaded Join}
    (proper : loaded.AreAll Join.IsProper) (entry : JoinEntry) :
    (load tables loaded entry).AreAll Join.IsProper := by
  unfold load
  split
  · exact .of_problem _ _ _
  · refine proper.append ?_
    intro noProblem join new
    exact isProper_of_join? (Option.mem_toList.mp new) noProblem

end Document.JoinEntry

/-- The joins of an accepted ring are proper. -/
theorem Ring.isProper_of_ofDocument {document : Document} {ring : Ring}
    (loads : Ring.ofDocument document = .ok ring) : ∀ join ∈ ring.joins, join.IsProper := by
  unfold Ring.ofDocument at loads
  dsimp only at loads
  split at loads
  · rename_i noProblem
    cases loads
    simp only [List.isEmpty_iff, List.append_eq_nil_iff] at noProblem
    exact Loaded.areAll_foldl Document.JoinEntry.areAll_load _ noProblem.1.1.2
  · cases loads

end SemanticQuery
