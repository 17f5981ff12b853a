import SemanticQuery.Proofs.Entries
import SemanticQuery.Proofs.Outcome
import SemanticQuery.Proofs.Ring.Accepted
import SemanticQuery.Resolve.Joins

/-!
# The tables that joins reach

Attaching joins to tables spreads from these along the joins, as far as they reach, whatever the order
in which they are followed.  Every table that is reached is brought in once, by a join whose other table
is there.  The joins that are left have no table within reach.
-/

namespace SemanticQuery

open Sql

/-! ## Reach -/

def Ring.IsNamed (ring : Ring) (names : NameSet) (join : Join) : Prop :=
  ∃ name ∈ names, ring.join name = .ok join

/-- The tables within reach of some tables: these, and with one table of a join also the other. -/
inductive Join.Reaches (isNamed : Join → Prop) (start : NameSet) : String → Prop where
  | start {table : String} (member : table ∈ start) : Reaches isNamed start table
  | across {join : Join} {there table : String} (named : isNamed join)
      (reached : Reaches isNamed start there) (isThere : join.HasEnd there)
      (isEnd : join.HasEnd table) : Reaches isNamed start table

def Join.IsStranded (isNamed : Join → Prop) (start : NameSet) (join : Join) : Prop :=
  isNamed join ∧ ∀ table, join.HasEnd table → ¬ Join.Reaches isNamed start table

def Sql.JoinClause.tablesAfter (start : List String) (clauses : List (JoinClause Select)) :
    List String :=
  start ++ clauses.map (·.table.name)

/-- A clause brings in a table that is not there by a join from one that is, in the direction that its
label tells. -/
inductive Sql.JoinClause.Follows (there : List String) (join : Join) : JoinClause Select → Prop where
  | forward (isThere : join.sourceTable ∈ there) (isNew : join.targetTable ∉ there) :
      Follows there join ⟨.leftOuter, .table join.targetTable, some join.condition, some join.name⟩
  | backward (isThere : join.targetTable ∈ there) (isNew : join.sourceTable ∉ there) :
      Follows there join
        ⟨.leftOuter, .table join.sourceTable, some join.condition, some join.reverseName⟩

/-- The tables of a join that is followed are there or brought in. -/
theorem Sql.JoinClause.Follows.mem_of_hasEnd {there : List String} {join : Join}
    {clause : JoinClause Select} (follows : clause.Follows there join) {table : String}
    (isEnd : join.HasEnd table) : table ∈ there ++ [clause.table.name] := by
  rw [List.mem_append, List.mem_singleton]
  cases follows with
  | forward isThere =>
      rcases isEnd with rfl | rfl
      · exact .inl isThere
      · exact .inr rfl
  | backward isThere =>
      rcases isEnd with rfl | rfl
      · exact .inr rfl
      · exact .inl isThere

theorem Join.touches_iff {tables : NameSet} {join : Join} :
    join.touches tables = true ↔ ∃ table ∈ tables, join.HasEnd table := by
  simp only [Join.touches, Bool.or_eq_true, List.contains_iff_mem, Join.HasEnd]
  constructor
  · rintro (source | target)
    · exact ⟨_, source, .inl rfl⟩
    · exact ⟨_, target, .inr rfl⟩
  · rintro ⟨table, member, rfl | rfl⟩
    · exact .inl member
    · exact .inr member

namespace Attached

open JoinClause

variable {joins pending : List Join} {start : NameSet} {attached : Attached} {join : Join}

/-! ## Taking joins -/

/-- The first item that passes a test, taken out of a list. -/
theorem exists_split_of_takeFirst {test : Join → Bool} {items rest : List Join}
    (taken : takeFirst test items = some (join, rest)) :
    test join = true ∧ ∃ before after, items = before ++ join :: after ∧ rest = before ++ after := by
  induction items generalizing rest with
  | nil => cases taken
  | cons first others ih =>
      rw [takeFirst] at taken
      split at taken
      · rename_i passes
        cases taken
        exact ⟨passes, [], others, rfl, rfl⟩
      · obtain ⟨⟨found, left⟩, inner, same⟩ := Option.map_eq_some_iff.mp taken
        cases same
        obtain ⟨passes, before, after, rfl, rfl⟩ := ih inner
        exact ⟨passes, first :: before, after, rfl, rfl⟩

theorem forall_of_takeFirst_eq_none {test : Join → Bool} {items : List Join}
    (none : takeFirst test items = none) : ∀ join ∈ items, test join = false := by
  induction items with
  | nil => exact nofun
  | cons first others ih =>
      rw [takeFirst] at none
      split at none
      · cases none
      · rename_i fails
        exact List.forall_mem_cons.mpr
          ⟨Bool.not_eq_true _ ▸ fails, ih (Option.map_eq_none_iff.mp none)⟩

/-! ## Spreading -/

/-- The state after following some of the joins from some tables: each of the others is pending. -/
structure IsSpread (joins : List Join) (start : NameSet) (pending : List Join)
    (attached : Attached) : Prop where
  tables : ∀ table, table ∈ attached.tables ↔ table ∈ tablesAfter start attached.clauses
  length : attached.tables.length = (tablesAfter start attached.clauses).length
  sorted : start.Pairwise (· < ·) → attached.tables.Pairwise (· < ·)
  distinct : start.Nodup → (tablesAfter start attached.clauses).Nodup
  reached : ∀ table ∈ attached.tables, Join.Reaches (· ∈ joins) start table
  followed : ∀ before clause after, attached.clauses = before ++ clause :: after →
    ∃ join ∈ joins, clause.Follows (tablesAfter start before) join
  /-- A join that is not pending has both its tables there. -/
  done : ∀ join ∈ joins, join ∈ pending ∨ ∀ table, join.HasEnd table → table ∈ attached.tables
  pending : pending.Sublist joins

theorem isSpread_start (joins : List Join) (start : NameSet) :
    IsSpread joins start joins ⟨[], start⟩ where
  tables := by simp [tablesAfter]
  length := by simp [tablesAfter]
  sorted := fun sorted => sorted
  distinct := by simp [tablesAfter]
  reached := fun _ member => .start member
  followed := by
    intro before clause after whole
    simp at whole
  done := fun _ member => .inl member
  pending := .refl _

/-- Bringing in a table by a join keeps the state right. -/
theorem IsSpread.add (spread : IsSpread joins start pending attached) (listed : join ∈ joins)
    {there new label : String} (ends : ∀ table, join.HasEnd table ↔ table = there ∨ table = new)
    (isThere : there ∈ attached.tables) (isNew : new ∉ attached.tables)
    (follows : ∀ tables : List String, there ∈ tables → new ∉ tables →
      Follows tables join ⟨.leftOuter, .table new, some join.condition, some label⟩)
    {rest : List Join} (left : rest.Sublist pending)
    (taken : ∀ other ∈ pending, other = join ∨ other ∈ rest) :
    IsSpread joins start rest (attached.add join new label) := by
  have grown : tablesAfter start (attached.add join new label).clauses =
      tablesAfter start attached.clauses ++ [new] := by
    simp [tablesAfter, Attached.add, TableRef.name]
  have kept {table : String} (member : table ∈ attached.tables) :
      table ∈ (attached.add join new label).tables := NameSet.mem_insert.mpr (.inr member)
  have added : new ∈ (attached.add join new label).tables := NameSet.mem_insert.mpr (.inl rfl)
  constructor
  · intro table
    rw [grown, List.mem_append, List.mem_singleton, ← spread.tables]
    exact NameSet.mem_insert.trans or_comm
  · rw [grown, List.length_append, ← spread.length]
    exact NameSet.length_insert isNew
  · intro sorted
    exact pairwise_insertSorted Function.injective_id (spread.sorted sorted)
  · intro once
    rw [grown, List.nodup_append']
    refine ⟨spread.distinct once, List.nodup_singleton new, ?_⟩
    rw [List.disjoint_singleton, ← spread.tables]
    exact isNew
  · intro table member
    rcases NameSet.mem_insert.mp member with rfl | earlier
    · exact .across listed (spread.reached there isThere) ((ends there).mpr (.inl rfl))
        ((ends table).mpr (.inr rfl))
    · exact spread.reached table earlier
  · intro before clause after whole
    rcases List.eq_nil_or_concat after with rfl | ⟨inner, last, rfl⟩
    · obtain ⟨rfl, same⟩ := List.append_inj' whole rfl
      cases same
      exact ⟨join, listed, follows _ ((spread.tables there).mp isThere)
        fun member => isNew ((spread.tables new).mpr member)⟩
    · rw [List.concat_eq_append, ← List.cons_append, ← List.append_assoc] at whole
      exact spread.followed before clause inner (List.append_inj' whole rfl).1
  · intro other member
    have both : ∀ table, join.HasEnd table → table ∈ (attached.add join new label).tables := by
      intro table isEnd
      rcases (ends table).mp isEnd with rfl | rfl
      · exact kept isThere
      · exact added
    rcases spread.done other member with isPending | inside
    · rcases taken other isPending with rfl | later
      · exact .inr both
      · exact .inl later
    · exact .inr fun table isEnd => kept (inside table isEnd)
  · exact left.trans spread.pending

/-- A join between tables that are there changes nothing. -/
theorem IsSpread.skip (spread : IsSpread joins start pending attached)
    (there : ∀ table, join.HasEnd table → table ∈ attached.tables) {rest : List Join}
    (left : rest.Sublist pending) (taken : ∀ other ∈ pending, other = join ∨ other ∈ rest) :
    IsSpread joins start rest attached := by
  refine { spread with done := ?_, pending := left.trans spread.pending }
  intro other member
  rcases spread.done other member with isPending | inside
  · rcases taken other isPending with rfl | later
    · exact .inr there
    · exact .inl later
  · exact .inr inside

/-- Following a pending join with a table that is there. -/
theorem IsSpread.follow {before after : List Join}
    (spread : IsSpread joins start (before ++ join :: after) attached)
    (touches : join.touches attached.tables = true) :
    IsSpread joins start (before ++ after) (attached.follow join) := by
  have listed : join ∈ joins := spread.pending.subset (by simp)
  have left : (before ++ after).Sublist (before ++ join :: after) :=
    (List.Sublist.refl before).append (List.sublist_cons_self join after)
  have taken : ∀ other ∈ before ++ join :: after, other = join ∨ other ∈ before ++ after := by
    simp only [List.mem_append, List.mem_cons]
    tauto
  simp only [Join.touches, Bool.or_eq_true, List.contains_iff_mem] at touches
  by_cases source : join.sourceTable ∈ attached.tables
  · by_cases target : join.targetTable ∈ attached.tables
    · have same : attached.follow join = attached := by simp [Attached.follow, source, target]
      rw [same]
      refine spread.skip ?_ left taken
      rintro table (rfl | rfl)
      · exact source
      · exact target
    · have added : attached.follow join = attached.add join join.targetTable join.name := by
        simp [Attached.follow, source, target]
      rw [added]
      exact spread.add listed (fun table => Iff.rfl) source target (fun _ => .forward) left taken
  · have target := touches.resolve_left source
    have added : attached.follow join = attached.add join join.sourceTable join.reverseName := by
      simp [Attached.follow, source, target]
    rw [added]
    exact spread.add listed (fun table => or_comm) target source (fun _ => .backward) left taken

/-- A run with enough steps left follows joins until no pending one has a table that is there. -/
theorem IsSpread.followAll {bound : Nat} (spread : IsSpread joins start pending attached)
    (enough : pending.length ≤ bound) :
    IsSpread joins start (followAll bound pending attached).2 (followAll bound pending attached).1 ∧
      ∀ join ∈ (followAll bound pending attached).2,
        join.touches (followAll bound pending attached).1.tables = false := by
  induction bound generalizing pending attached with
  | zero =>
      obtain rfl := List.eq_nil_of_length_eq_zero (Nat.le_zero.mp enough)
      exact ⟨spread, nofun⟩
  | succ bound ih =>
      rw [Attached.followAll]
      split
      · rename_i none
        exact ⟨spread, forall_of_takeFirst_eq_none none⟩
      · rename_i join rest taken
        obtain ⟨touches, before, after, rfl, rfl⟩ := exists_split_of_takeFirst taken
        refine ih (spread.follow touches) ?_
        simp only [List.length_append, List.length_cons] at enough ⊢
        omega

/-- When no pending join has a table that is there, all tables within reach are there. -/
theorem IsSpread.mem_tables_iff (spread : IsSpread joins start pending attached)
    (ended : ∀ join ∈ pending, join.touches attached.tables = false) {table : String} :
    table ∈ attached.tables ↔ Join.Reaches (· ∈ joins) start table := by
  refine ⟨spread.reached table, ?_⟩
  intro reached
  induction reached with
  | start member => exact (spread.tables _).mpr (List.mem_append_left _ member)
  | @across join there table listed _ isThere isEnd ih =>
      rcases spread.done join listed with isPending | inside
      · have touches := Join.touches_iff.mpr ⟨there, ih, isThere⟩
        rw [ended join isPending] at touches
        cases touches
      · exact inside table isEnd

/-- The joins that are left are those that are stranded. -/
theorem IsSpread.mem_pending_iff (spread : IsSpread joins start pending attached)
    (ended : ∀ join ∈ pending, join.touches attached.tables = false) :
    join ∈ pending ↔ join.IsStranded (· ∈ joins) start := by
  simp only [Join.IsStranded, ← spread.mem_tables_iff ended]
  constructor
  · intro isPending
    refine ⟨spread.pending.subset isPending, ?_⟩
    intro table isEnd member
    have touches := Join.touches_iff.mpr ⟨table, member, isEnd⟩
    rw [ended join isPending] at touches
    cases touches
  · rintro ⟨listed, apart⟩
    refine (spread.done join listed).resolve_right ?_
    intro inside
    exact apart join.sourceTable (.inl rfl) (inside join.sourceTable (.inl rfl))

/-- The tables that are there are those at the start and those brought in, each once. -/
theorem IsSpread.perm_tables (spread : IsSpread joins start pending attached)
    (sorted : start.Pairwise (· < ·)) : attached.tables.Perm (tablesAfter start attached.clauses) :=
  (List.perm_ext_iff_of_nodup ((spread.sorted sorted).imp ne_of_lt)
    (spread.distinct (sorted.imp ne_of_lt))).mpr spread.tables

/-- What is pending stays in the order of the names. -/
theorem IsSpread.name_le_of_mem (spread : IsSpread joins start (join :: pending) attached)
    (ordered : (joins.map (·.name)).Pairwise (· < ·)) {other : Join}
    (member : other ∈ join :: pending) : join.name ≤ other.name := by
  have least := (List.pairwise_cons.mp ((List.pairwise_map.mp ordered).sublist spread.pending)).1
  rcases List.mem_cons.mp member with rfl | later
  · exact le_rfl
  · exact (least other later).le

end Attached

/-! ## Named joins -/

namespace Ring

variable {ring : Ring} {names tables : NameSet} {joins : List Join}

theorem name_of_join {name : String} {join : Join} (found : ring.join name = .ok join) :
    join.name = name := by
  unfold Ring.join at found
  split at found
  · rename_i known isKnown
    cases found
    simpa using List.find?_some isKnown
  · cases found

theorem map_name_of_mapM (found : names.mapM ring.join = .ok joins) : joins.map (·.name) = names := by
  have same : joins.map (·.name) = names.map id :=
    map_eq_map_of_forall₂ (fun _ _ => name_of_join) (mapM_eq_ok_iff.mp found)
  rwa [List.map_id] at same

theorem mem_iff_isNamed (found : names.mapM ring.join = .ok joins) (join : Join) :
    join ∈ joins ↔ ring.IsNamed names join := by
  constructor
  · intro listed
    exact exists_of_mem_mapM found listed
  · rintro ⟨name, member, isJoin⟩
    obtain ⟨other, listed, isOther⟩ := exists_result_of_mem_mapM found member
    cases isJoin.symm.trans isOther
    exact listed

/-- Attaching named joins follows them as far as they reach; the first of those that are left is
reported. -/
theorem exists_isSpread_of_attach (subplan : SubplanId) (tables : NameSet)
    (found : names.mapM ring.join = .ok joins) :
    ∃ pending attached, Attached.IsSpread joins tables pending attached ∧
      (∀ join ∈ pending, join.touches attached.tables = false) ∧
      (ring.attach subplan names tables).2 = attached.tables ∧
      (ring.attach subplan names tables).1 =
        match pending.head? with
        | none => .ok attached.clauses
        | some join => .error (.strandedJoin subplan.text join.name attached.tables) := by
  have whole := (Attached.isSpread_start joins tables).followAll (Nat.le_refl joins.length)
  simp only [Ring.attach, found]
  generalize Attached.followAll joins.length joins ⟨[], tables⟩ = last at whole ⊢
  obtain ⟨attached, pending⟩ := last
  refine ⟨pending, attached, whole.1, whole.2, ?_⟩
  cases pending <;> exact ⟨rfl, rfl⟩

/-- Where attaching joins succeeds, all are followed. -/
theorem exists_isSpread_of_attach_eq_ok {subplan : SubplanId} {clauses : List (JoinClause Select)}
    (attached : (ring.attach subplan names tables).1 = .ok clauses) :
    ∃ joins reached, names.mapM ring.join = .ok joins ∧
      Attached.IsSpread joins tables [] ⟨clauses, reached⟩ := by
  cases found : names.mapM ring.join with
  | error error =>
      rw [Ring.attach, found] at attached
      cases attached
  | ok joins =>
      obtain ⟨pending, state, spread, -, -, outcome⟩ :=
        exists_isSpread_of_attach subplan tables found
      rw [attached] at outcome
      cases pending with
      | nil =>
          cases outcome
          exact ⟨joins, state.tables, rfl, spread⟩
      | cons join rest => cases outcome

/-- Attaching joins to tables reaches exactly the tables that the joins lead to.  It succeeds exactly if
every join has a table within reach; then each table that was not there is brought in once, from one that
is there.  Otherwise it names the first join, by name, without such a table. -/
theorem attach_exact (sortedNames : names.Pairwise (· < ·)) (sortedTables : tables.Pairwise (· < ·))
    (known : ∀ name ∈ names, ∃ join, ring.join name = .ok join) (subplan : SubplanId) :
    ∃ outcome reached, ring.attach subplan names tables = (outcome, reached) ∧
      reached.Pairwise (· < ·) ∧
      (∀ table, table ∈ reached ↔ Join.Reaches (ring.IsNamed names) tables table) ∧
      ((∃ clauses, outcome = .ok clauses) ↔ ∀ join, ring.IsNamed names join →
        ∃ table, join.HasEnd table ∧ Join.Reaches (ring.IsNamed names) tables table) ∧
      (∀ clauses, outcome = .ok clauses →
        reached.length = tables.length + clauses.length ∧
        reached.Perm (JoinClause.tablesAfter tables clauses) ∧
        ∀ before clause after, clauses = before ++ clause :: after →
          ∃ join, ring.IsNamed names join ∧
            clause.Follows (JoinClause.tablesAfter tables before) join) ∧
      ∀ error, outcome = .error error →
        ∃ join : Join, error = .strandedJoin subplan.text join.name reached ∧
          join.IsStranded (ring.IsNamed names) tables ∧
          ∀ other : Join, other.IsStranded (ring.IsNamed names) tables → join.name ≤ other.name := by
  obtain ⟨joins, found⟩ := exists_mapM_eq_ok known
  obtain ⟨pending, attached, spread, ended, reached, outcome⟩ :=
    exists_isSpread_of_attach subplan tables found
  have isNamed : (· ∈ joins) = ring.IsNamed names := funext fun join =>
    propext (mem_iff_isNamed found join)
  have stranded {join : Join} : join ∈ pending ↔ join.IsStranded (ring.IsNamed names) tables :=
    isNamed ▸ spread.mem_pending_iff ended
  have within {table : String} :
      table ∈ attached.tables ↔ Join.Reaches (ring.IsNamed names) tables table :=
    isNamed ▸ spread.mem_tables_iff ended
  have sorted := spread.sorted sortedTables
  cases pending with
  | nil =>
      refine ⟨.ok attached.clauses, attached.tables, Prod.ext outcome reached, sorted,
        fun table => within, ⟨?_, fun _ => ⟨_, rfl⟩⟩, ?_, nofun⟩
      · intro _ join named
        by_contra apart
        rw [not_exists] at apart
        cases stranded.mpr ⟨named, fun table isEnd inReach => apart table ⟨isEnd, inReach⟩⟩
      · rintro clauses ⟨⟩
        refine ⟨?_, spread.perm_tables sortedTables, ?_⟩
        · rw [spread.length, JoinClause.tablesAfter, List.length_append, List.length_map]
        · intro before clause after whole
          obtain ⟨join, listed, follows⟩ := spread.followed before clause after whole
          exact ⟨join, (mem_iff_isNamed found join).mp listed, follows⟩
  | cons join rest =>
      refine ⟨.error _, attached.tables, Prod.ext outcome reached, sorted, fun table => within, ⟨?_, ?_⟩,
        nofun, ?_⟩
      · rintro ⟨clauses, impossible⟩
        cases impossible
      · intro all
        obtain ⟨named, apart⟩ := stranded.mp List.mem_cons_self
        obtain ⟨table, isEnd, inReach⟩ := all join named
        exact (apart table isEnd inReach).elim
      · rintro error ⟨⟩
        refine ⟨join, rfl, stranded.mp List.mem_cons_self, ?_⟩
        intro other isStranded
        exact spread.name_le_of_mem (map_name_of_mapM found ▸ sortedNames) (stranded.mpr isStranded)

end Ring

def circleRing : Ring where
  name := "trade"
  dialect := .sqlite
  connection := none
  tables := []
  joins := [joining "department" "company", joining "employee" "company",
    joining "employee" "department", joining "invoice" "order", joining "order" "product"]
  entities := []
  relationships := []
where
  joining (source target : String) : Join :=
    { name := source ++ "_" ++ target, sourceTable := source, targetTable := target,
      path := [⟨⟨source, "id"⟩, ⟨target, "id"⟩⟩], bidirectional := false }

/-- From one table of the circle both others are reached, against the direction of two joins, before the
other joins turn out to be stranded. -/
theorem attach_exact_circleRing :
    (circleRing.attach ⟨0⟩ ["department_company", "employee_company", "employee_department"]
        ["company"]).1.map (fun clauses => clauses.map (·.relation)) =
      .ok [some "reverse_department_company", some "reverse_employee_company"] ∧
    (∀ table, table ∈ ["company", "department", "employee"] ↔ Join.Reaches
      (circleRing.IsNamed (circleRing.joins.map (·.name))) ["company"] table) ∧
    ∃ join : Join, join.name = "invoice_order" ∧
      join.IsStranded (circleRing.IsNamed (circleRing.joins.map (·.name))) ["company"] := by
  have refused : (circleRing.attach ⟨0⟩ (circleRing.joins.map (·.name)) ["company"]).1.map
      (fun clauses => clauses.length) = .error (.strandedJoin "alias_0" "invoice_order"
        ["company", "department", "employee"]) := by
    decide +kernel
  have found : ∀ join ∈ circleRing.joins, circleRing.join join.name = .ok join := by decide +kernel
  have known : ∀ name ∈ circleRing.joins.map (·.name), ∃ join, circleRing.join name = .ok join := by
    intro name member
    obtain ⟨join, listed, rfl⟩ := List.mem_map.mp member
    exact ⟨join, found join listed⟩
  have sortedNames : (circleRing.joins.map (·.name)).Pairwise (· < ·) := by decide +kernel
  obtain ⟨outcome, reached, whole, -, within, -, -, names⟩ :=
    Ring.attach_exact sortedNames (List.pairwise_singleton _ "company") known ⟨0⟩
  rw [whole] at refused
  obtain ⟨join, same, stranded, -⟩ := names _ (map_eq_error_iff.mp refused)
  obtain ⟨-, named, rfl⟩ := Error.strandedJoin.inj same
  exact ⟨by decide +kernel, within, join, named.symm, stranded⟩

end SemanticQuery
