import Mathlib.Data.List.Induction
import Mathlib.Data.Nat.Find
import SemanticQuery.Proofs.Entries
import SemanticQuery.Ring.Relationship

/-!
# Shortest paths between entities

A walk follows relationships from entity to entity, each in either direction.  The search for a path
visits entities in the order of their distance: when a name is seen for the first time, every walk to it
has left the names seen before at an entity that is still in the queue, and so is no shorter than the path
by which it was found.  This path is what the records lead back by; they lead back to the start, which has
none.
-/

namespace SemanticQuery.Relationship

variable {relationships : List Relationship}

/-! ## Walks -/

def Connects (relationship : Relationship) (first second : String) : Prop :=
  relationship.source = first ∧ relationship.target = second ∨
    relationship.source = second ∧ relationship.target = first

instance (relationship : Relationship) (first second : String) :
    Decidable (relationship.Connects first second) :=
  inferInstanceAs (Decidable (_ ∨ _))

def Links (relationships : List Relationship) (index : Nat) (first second : String) : Prop :=
  ∃ relationship, relationships[index]? = some relationship ∧ relationship.Connects first second

/-- The relationship that is declared at an index is the last one between two entities. -/
def LinksLast (relationships : List Relationship) (index : Nat) (first second : String) : Prop :=
  Links relationships index first second ∧
    ∀ other, Links relationships other first second → other ≤ index

/-- Indices that lead from one entity to another, by links of some kind. -/
inductive IsWalk (links : Nat → String → String → Prop) : String → List Nat → String → Prop where
  | nil (entity : String) : IsWalk links entity [] entity
  | cons {first next last : String} {index : Nat} {path : List Nat} (link : links index first next)
      (rest : IsWalk links next path last) : IsWalk links first (index :: path) last

/-- A walk by relationships that are each the last between its two entities, and no walk is shorter. -/
structure IsShortest (relationships : List Relationship) (start : String) (path : List Nat)
    (goal : String) : Prop where
  walk : IsWalk (LinksLast relationships) start path goal
  least : ∀ other, IsWalk (Links relationships) start other goal → path.length ≤ other.length

theorem Links.symm {index : Nat} {first second : String}
    (links : Links relationships index first second) : Links relationships index second first := by
  obtain ⟨relationship, found, connects⟩ := links
  exact ⟨relationship, found, connects.symm⟩

namespace IsWalk

variable {links more : Nat → String → String → Prop} {start last : String} {path : List Nat}

theorem mono (walk : IsWalk links start path last)
    (included : ∀ index first second, links index first second → more index first second) :
    IsWalk more start path last := by
  induction walk with
  | nil entity => exact .nil entity
  | cons link _ ih => exact .cons (included _ _ _ link) ih

theorem concat (walk : IsWalk links start path last) {index : Nat} {next : String}
    (link : links index last next) : IsWalk links start (path ++ [index]) next := by
  induction walk with
  | nil => exact .cons link (.nil next)
  | cons first _ ih => exact .cons first (ih link)

theorem reverse (walk : IsWalk links start path last)
    (symmetric : ∀ index first second, links index first second → links index second first) :
    IsWalk links last path.reverse start := by
  induction walk with
  | nil entity => exact .nil entity
  | cons link _ ih =>
      rw [List.reverse_cons]
      exact ih.concat (symmetric _ _ _ link)

/-- A walk that ends elsewhere arrives by a last link. -/
theorem exists_last (walk : IsWalk links start path last) (differ : start ≠ last) :
    ∃ index ∈ path, ∃ before, links index before last := by
  induction walk with
  | nil => exact (differ rfl).elim
  | @cons first next last index path link _ ih =>
      by_cases same : next = last
      · exact ⟨index, List.mem_cons_self, first, same ▸ link⟩
      · obtain ⟨found, member, reached⟩ := ih same
        exact ⟨found, List.mem_cons_of_mem _ member, reached⟩

/-- A walk that leaves some entities does so by one link for the first time. -/
theorem exists_exit (walk : IsWalk links start path last) {seen : List String}
    (inside : start ∈ seen) (outside : last ∉ seen) :
    ∃ before index after entity next, path = before ++ index :: after ∧
      IsWalk links start before entity ∧ entity ∈ seen ∧ links index entity next ∧ next ∉ seen := by
  induction walk with
  | nil => exact (outside inside).elim
  | @cons first next last index path link _ ih =>
      by_cases isSeen : next ∈ seen
      · obtain ⟨before, found, after, entity, beyond, rfl, walk, known, exit, unknown⟩ :=
          ih isSeen outside
        exact ⟨index :: before, found, after, entity, beyond, rfl, .cons link walk, known, exit, unknown⟩
      · exact ⟨[], index, path, first, next, rfl, .nil first, inside, link, isSeen⟩

end IsWalk

/-! ## Neighbours -/

def neighbours (relationships : List Relationship) (entity : String) : Entries String Nat :=
  edgesOf (adjacency relationships) entity

section Connect

variable {graph : Adjacency} {source target entity name : String} {index : Nat}

theorem edgesOf_connect :
    edgesOf (connect source target index graph) entity =
      if source = entity then (edgesOf graph source).put target index
      else edgesOf graph entity := by
  rw [edgesOf, connect, Entries.get?_put]
  split <;> rfl

theorem get?_edgesOf_connect :
    (edgesOf (connect source target index graph) entity).get? name =
      if source = entity ∧ target = name then some index
      else (edgesOf graph entity).get? name := by
  rw [edgesOf_connect]
  by_cases same : source = entity
  · simp [same, Entries.get?_put]
  · simp [same]

theorem nodup_edgesOf_connect (distinct : ∀ entity, ((edgesOf graph entity).map (·.1)).Nodup) :
    ((edgesOf (connect source target index graph) entity).map (·.1)).Nodup := by
  rw [edgesOf_connect]
  split
  · rw [Entries.map_fst_put]
    exact nodup_addNew (distinct source)
  · exact distinct entity

theorem get?_edgesOf_connectBoth {relationship : Relationship} :
    (edgesOf (connectBoth graph (relationship, index)) entity).get? name =
      if relationship.Connects entity name then some index
      else (edgesOf graph entity).get? name := by
  rw [connectBoth, get?_edgesOf_connect, get?_edgesOf_connect]
  by_cases forward : relationship.source = entity ∧ relationship.target = name
  · simp [Connects, forward]
  · by_cases backward : relationship.source = name ∧ relationship.target = entity
    · simp [Connects, backward]
    · have apart : ¬relationship.Connects entity name := not_or.mpr ⟨forward, backward⟩
      rw [if_neg forward, if_neg (mt And.symm backward), if_neg apart]

end Connect

theorem adjacency_concat (relationships : List Relationship) (relationship : Relationship) :
    adjacency (relationships ++ [relationship]) =
      connectBoth (adjacency relationships) (relationship, relationships.length) := by
  simp [adjacency, List.zipIdx_append]

theorem links_concat {relationship : Relationship} {index : Nat} {first second : String} :
    Links (relationships ++ [relationship]) index first second ↔
      Links relationships index first second ∨
        index = relationships.length ∧ relationship.Connects first second := by
  unfold Links
  rw [List.getElem?_append]
  split
  · rename_i less
    simp [less.ne]
  · rename_i notLess
    rw [List.getElem?_eq_none (Nat.le_of_not_lt notLess)]
    by_cases same : index = relationships.length
    · simp [same]
    · have beyond : index - relationships.length ≠ 0 := by omega
      simp [same, beyond]

theorem Links.lt_length {index : Nat} {first second : String}
    (links : Links relationships index first second) : index < relationships.length := by
  obtain ⟨relationship, found, -⟩ := links
  exact (List.getElem?_eq_some_iff.mp found).1

/-- The neighbours of an entity are the entities that it is linked to, each with the last link. -/
theorem get?_neighbours {entity name : String} {index : Nat} :
    (neighbours relationships entity).get? name = some index ↔
      LinksLast relationships index entity name := by
  induction relationships using List.reverseRecOn with
  | nil => simp [neighbours, adjacency, edgesOf, Entries.get?, LinksLast, Links]
  | append_singleton relationships relationship ih =>
      rw [neighbours, adjacency_concat, get?_edgesOf_connectBoth, ← neighbours]
      simp only [LinksLast, links_concat]
      split
      · rename_i connects
        simp only [connects, and_true, Option.some.injEq]
        constructor
        · rintro rfl
          exact ⟨.inr rfl, fun other known => known.elim (fun links => links.lt_length.le) Nat.le_of_eq⟩
        · rintro ⟨known, last⟩
          have most := last _ (.inr rfl)
          rcases known with links | same
          · exact absurd links.lt_length (Nat.not_lt_of_le most)
          · exact same.symm
      · rename_i apart
        simp only [apart, and_false, or_false]
        exact ih

theorem nodup_neighbours (relationships : List Relationship) (entity : String) :
    ((neighbours relationships entity).map (·.1)).Nodup := by
  induction relationships using List.reverseRecOn generalizing entity with
  | nil => exact List.nodup_nil
  | append_singleton relationships relationship ih =>
      rw [neighbours, adjacency_concat, connectBoth]
      exact nodup_edgesOf_connect fun _ => nodup_edgesOf_connect ih

theorem mem_neighbours_iff {entity name : String} {index : Nat} :
    (name, index) ∈ neighbours relationships entity ↔ LinksLast relationships index entity name :=
  ⟨fun member => get?_neighbours.mp (Entries.get?_of_mem (nodup_neighbours _ _) member),
    fun last => Entries.mem_of_get? (get?_neighbours.mpr last)⟩

/-- Where there is a link there is a last one. -/
theorem Links.exists_last {index : Nat} {first second : String}
    (links : Links relationships index first second) :
    ∃ last, LinksLast relationships last first second := by
  classical
  let known := fun other => Links relationships other first second
  exact ⟨Nat.findGreatest known relationships.length,
    Nat.findGreatest_spec (P := known) links.lt_length.le links,
    fun other later => Nat.le_findGreatest later.lt_length.le later⟩

/-! ## Layers -/

def ends (relationships : List Relationship) : List String :=
  relationships.flatMap fun relationship => [relationship.source, relationship.target]

theorem length_ends (relationships : List Relationship) :
    (ends relationships).length = 2 * relationships.length := by
  induction relationships with
  | nil => rfl
  | cons relationship rest ih =>
      rw [ends, List.flatMap_cons, List.length_append, ← ends, ih, List.length_cons]
      simp only [List.length_cons, List.length_nil]
      omega

theorem Links.mem_ends {index : Nat} {first second : String}
    (links : Links relationships index first second) : second ∈ ends relationships := by
  obtain ⟨relationship, found, connects⟩ := links
  refine List.mem_flatMap.mpr ⟨relationship, List.mem_of_getElem? found, ?_⟩
  rcases connects with ⟨-, rfl⟩ | ⟨rfl, -⟩
  · simp
  · simp

structure Reached where
  entity : String
  path : List Nat

/-- A search from an entity comes by layers.  The queue has shortest paths, no two of them further apart
than one step and the shorter ones first; a name that was seen and is no longer queued has no neighbour
that was not seen. -/
structure IsLayered (relationships : List Relationship) (start : String) (queue : List Reached)
    (seen : List String) : Prop where
  start_mem : start ∈ seen
  known : seen ⊆ start :: ends relationships
  distinct : seen.Nodup
  queued : ∀ node ∈ queue, node.entity ∈ seen
  shortest : ∀ node ∈ queue, IsShortest relationships start node.path node.entity
  layered : queue.Pairwise fun first second =>
    first.path.length ≤ second.path.length ∧ second.path.length ≤ first.path.length + 1
  closed : ∀ entity ∈ seen, entity ∉ queue.map Reached.entity →
    ∀ index next, Links relationships index entity next → next ∈ seen

namespace IsLayered

variable {start : String} {node : Reached} {queue : List Reached} {seen : List String}

theorem length_seen_le (layers : IsLayered relationships start queue seen) :
    seen.length ≤ 2 * relationships.length + 1 := by
  have fewer := (List.subperm_of_subset layers.distinct layers.known).length_le
  rwa [List.length_cons, length_ends] at fewer

/-- A walk to a name that was not seen passes an entity in the queue. -/
theorem exists_queued (layers : IsLayered relationships start queue seen) {goal : String}
    {walk : List Nat} (isWalk : IsWalk (Links relationships) start walk goal)
    (unseen : goal ∉ seen) : ∃ node ∈ queue, node.path.length + 1 ≤ walk.length := by
  obtain ⟨before, index, after, entity, next, rfl, inside, known, exit, beyond⟩ :=
    isWalk.exists_exit layers.start_mem unseen
  have queued : entity ∈ queue.map Reached.entity := by
    by_contra done
    exact beyond (layers.closed entity known done index next exit)
  obtain ⟨node, member, rfl⟩ := List.mem_map.mp queued
  have least := (layers.shortest node member).least before inside
  refine ⟨node, member, ?_⟩
  rw [List.length_append, List.length_cons]
  omega

/-- With an empty queue, what was not seen cannot be reached. -/
theorem not_isWalk (layers : IsLayered relationships start [] seen) {goal : String}
    (unseen : goal ∉ seen) (walk : List Nat) : ¬IsWalk (Links relationships) start walk goal := by
  intro isWalk
  obtain ⟨node, none, -⟩ := layers.exists_queued isWalk unseen
  cases none

/-- A new neighbour of the first entity in the queue has no shorter path than by that entity. -/
theorem isShortest_concat (layers : IsLayered relationships start (node :: queue) seen)
    {name : String} {index : Nat} (last : LinksLast relationships index node.entity name)
    (unseen : name ∉ seen) : IsShortest relationships start (node.path ++ [index]) name where
  walk := (layers.shortest node List.mem_cons_self).walk.concat last
  least := by
    intro walk isWalk
    obtain ⟨other, member, longer⟩ := layers.exists_queued isWalk unseen
    rw [List.length_append, List.length_singleton]
    rcases List.mem_cons.mp member with rfl | later
    · exact longer
    · have before := ((List.pairwise_cons.mp layers.layered).1 other later).1
      omega

/-- While the first entity is visited, its new neighbours join the end of the queue. -/
theorem discover (layers : IsLayered relationships start (node :: queue) seen) {name : String}
    {index : Nat} (last : LinksLast relationships index node.entity name) (unseen : name ∉ seen) :
    IsLayered relationships start (node :: (queue ++ [⟨name, node.path ++ [index]⟩]))
      (seen ++ [name]) where
  start_mem := List.mem_append_left _ layers.start_mem
  known := by
    refine List.append_subset.mpr ⟨layers.known, List.cons_subset.mpr ⟨?_, List.nil_subset _⟩⟩
    exact List.mem_cons_of_mem _ last.1.mem_ends
  distinct := by
    have distinct := List.Nodup.concat unseen layers.distinct
    rwa [List.concat_eq_append] at distinct
  queued := by
    intro other member
    rw [← List.cons_append] at member
    rcases List.mem_append.mp member with earlier | new
    · exact List.mem_append_left _ (layers.queued other earlier)
    · rw [List.mem_singleton.mp new]
      exact List.mem_append_right _ List.mem_cons_self
  shortest := by
    intro other member
    rw [← List.cons_append] at member
    rcases List.mem_append.mp member with earlier | new
    · exact layers.shortest other earlier
    · rw [List.mem_singleton.mp new]
      exact layers.isShortest_concat last unseen
  layered := by
    rw [← List.cons_append]
    refine List.pairwise_append.mpr ⟨layers.layered, List.pairwise_singleton _ _, ?_⟩
    intro other member new isNew
    rw [List.mem_singleton.mp isNew, List.length_append, List.length_singleton]
    rcases List.mem_cons.mp member with rfl | later
    · omega
    · have near := (List.pairwise_cons.mp layers.layered).1 other later
      omega
  closed := by
    intro entity member done next
    rw [← List.cons_append, List.map_append, List.mem_append, not_or] at done
    rcases List.mem_append.mp member with earlier | new
    · intro second links
      exact List.mem_append_left _ (layers.closed entity earlier done.1 next second links)
    · exact (done.2 new).elim

/-- An entity leaves the queue when all its neighbours were seen. -/
theorem leave (layers : IsLayered relationships start (node :: queue) seen)
    (visited : ∀ index next, Links relationships index node.entity next → next ∈ seen) :
    IsLayered relationships start queue seen where
  start_mem := layers.start_mem
  known := layers.known
  distinct := layers.distinct
  queued := fun other member => layers.queued other (List.mem_cons_of_mem _ member)
  shortest := fun other member => layers.shortest other (List.mem_cons_of_mem _ member)
  layered := (List.pairwise_cons.mp layers.layered).2
  closed := by
    intro entity member done
    by_cases same : entity = node.entity
    · exact same ▸ visited
    · refine layers.closed entity member ?_
      rw [List.map_cons, List.mem_cons, not_or]
      exact ⟨same, done⟩

end IsLayered

variable {start goal : String}

theorem isLayered_start (relationships : List Relationship) (start : String) :
    IsLayered relationships start [⟨start, []⟩] [start] where
  start_mem := List.mem_cons_self
  known := List.cons_subset.mpr ⟨List.mem_cons_self, List.nil_subset _⟩
  distinct := List.nodup_singleton start
  queued := by simp
  shortest := by
    intro node member
    rw [List.mem_singleton.mp member]
    exact ⟨.nil start, fun _ _ => Nat.zero_le _⟩
  layered := List.pairwise_singleton _ _
  closed := by simp

/-! ## Walking back -/

/-- Records lead back from a name to the start, by the indices of a path from the start. -/
inductive LeadsBack (previous : Entries String (String × Nat)) (start : String) :
    String → List Nat → Prop where
  | start : LeadsBack previous start start []
  | step {name parent : String} {index : Nat} {path : List Nat}
      (record : previous.get? name = some (parent, index))
      (back : LeadsBack previous start parent path) :
      LeadsBack previous start name (path ++ [index])

/-- A new record stands in the way of none that was there. -/
theorem LeadsBack.put {previous : Entries String (String × Nat)} {name fresh : String}
    {path : List Nat} (back : LeadsBack previous start name path)
    (unset : previous.get? fresh = none) (origin : String × Nat) :
    LeadsBack (previous.put fresh origin) start name path := by
  induction back with
  | start => exact .start
  | @step name parent index path record _ ih =>
      refine .step ?_ ih
      have other : fresh ≠ name := by
        rintro rfl
        rw [unset] at record
        cases record
      rw [Entries.get?_put, if_neg other, record]

/-- The walk back ends at the start, which has no record, and gives the path in its own order. -/
theorem LeadsBack.walkBack_eq {previous : Entries String (String × Nat)} {name : String}
    {path : List Nat} (back : LeadsBack previous start name path)
    (unset : previous.get? start = none) {bound : Nat} (enough : path.length < bound)
    (collected : List Nat) :
    walkBack previous bound name collected = .found (path ++ collected.reverse) := by
  induction back generalizing bound collected with
  | start =>
      obtain ⟨bound, rfl⟩ := Nat.exists_eq_succ_of_ne_zero (Nat.ne_of_gt enough)
      rw [walkBack, unset]
      rfl
  | @step name parent index path record _ ih =>
      obtain ⟨bound, rfl⟩ := Nat.exists_eq_succ_of_ne_zero (Nat.ne_zero_of_lt enough)
      rw [List.length_append, List.length_singleton] at enough
      rw [walkBack, record]
      dsimp only
      rw [ih (Nat.lt_of_succ_lt_succ enough), List.reverse_append, List.append_assoc]
      rfl

/-- The records of a search: names that were not seen and the start have none, and each entity in the
queue is led back from by its path, on which no name has two records. -/
structure IsRecorded (start : String) (queue : List Reached) (seen : List String)
    (previous : Entries String (String × Nat)) : Prop where
  start_unset : previous.get? start = none
  unset : ∀ name ∉ seen, previous.get? name = none
  back : ∀ node ∈ queue, LeadsBack previous start node.entity node.path
  short : ∀ node ∈ queue, node.path.length ≤ previous.length

namespace IsRecorded

variable {node : Reached} {queue : List Reached} {seen : List String}
  {previous : Entries String (String × Nat)} {name : String} {index : Nat}

theorem length_put (recorded : IsRecorded start queue seen previous) (unseen : name ∉ seen)
    (origin : String × Nat) : (previous.put name origin).length = previous.length + 1 := by
  have fresh : name ∉ previous.map (·.1) := by
    rw [← Entries.isSome_get?_iff, recorded.unset name unseen]
    simp
  rw [Entries.put_of_not_mem fresh, List.length_append, List.length_singleton]

/-- A new record leads back over the entity that is visited. -/
theorem discover (recorded : IsRecorded start (node :: queue) seen previous) (started : start ∈ seen)
    (unseen : name ∉ seen) (index : Nat) :
    IsRecorded start (node :: (queue ++ [⟨name, node.path ++ [index]⟩])) (seen ++ [name])
      (previous.put name (node.entity, index)) where
  start_unset := by
    have other : name ≠ start := by
      rintro rfl
      exact unseen started
    rw [Entries.get?_put, if_neg other, recorded.start_unset]
  unset := by
    intro other unknown
    rw [List.mem_append, List.mem_singleton, not_or] at unknown
    rw [Entries.get?_put, if_neg (Ne.symm unknown.2), recorded.unset other unknown.1]
  back := by
    intro other member
    rw [← List.cons_append] at member
    have unset := recorded.unset name unseen
    rcases List.mem_append.mp member with earlier | new
    · exact (recorded.back other earlier).put unset _
    · rw [List.mem_singleton.mp new]
      refine .step ?_ ((recorded.back node List.mem_cons_self).put unset _)
      rw [Entries.get?_put, if_pos rfl]
  short := by
    intro other member
    rw [← List.cons_append] at member
    rw [recorded.length_put unseen]
    rcases List.mem_append.mp member with earlier | new
    · exact Nat.le_succ_of_le (recorded.short other earlier)
    · rw [List.mem_singleton.mp new, List.length_append, List.length_singleton]
      exact Nat.succ_le_succ (recorded.short node List.mem_cons_self)

theorem leave (recorded : IsRecorded start (node :: queue) seen previous) :
    IsRecorded start queue seen previous where
  start_unset := recorded.start_unset
  unset := recorded.unset
  back := fun other member => recorded.back other (List.mem_cons_of_mem _ member)
  short := fun other member => recorded.short other (List.mem_cons_of_mem _ member)

/-- From a new neighbour of the first entity the walk back gives the path by that entity. -/
theorem walkBack_eq (recorded : IsRecorded start (node :: queue) seen previous)
    (started : start ∈ seen) (unseen : name ∉ seen) :
    walkBack (previous.put name (node.entity, index))
        ((previous.put name (node.entity, index)).length + 1) name [] =
      .found (node.path ++ [index]) := by
  have next := recorded.discover started unseen index
  have isNew : (⟨name, node.path ++ [index]⟩ : Reached) ∈
      node :: (queue ++ [⟨name, node.path ++ [index]⟩]) := by
    simp
  rw [(next.back _ isNew).walkBack_eq next.start_unset (Nat.lt_succ_of_le (next.short _ isNew)),
    List.reverse_nil, List.append_nil]

end IsRecorded

theorem isRecorded_start (start : String) : IsRecorded start [⟨start, []⟩] [start] [] where
  start_unset := rfl
  unset _ _ := rfl
  back := by
    intro node member
    rw [List.mem_singleton.mp member]
    exact .start
  short := by
    intro node member
    rw [List.mem_singleton.mp member]
    exact Nat.le_refl 0

/-! ## Searches -/

/-- A frontier has the entities of a queue of shortest paths, and its records lead back by them. -/
structure IsFrontier (relationships : List Relationship) (start : String) (queue : List Reached)
    (seen : List String) (previous : Entries String (String × Nat)) : Prop where
  layers : IsLayered relationships start queue seen
  recorded : IsRecorded start queue seen previous

/-- Visiting neighbours of the first entity finds a shortest path to the goal, or all of them are seen
and the goal is not among them.  As many names are seen as join the queue. -/
theorem visit_cases {node : Reached} {edges : Entries String Nat} {queue : List Reached}
    {seen : List String} {previous : Entries String (String × Nat)}
    (sound : IsFrontier relationships start (node :: queue) seen previous)
    (linked : ∀ edge ∈ edges, LinksLast relationships edge.2 node.entity edge.1)
    (unseen : goal ∉ seen) :
    (∃ path, visit goal node.entity edges ⟨queue.map Reached.entity, seen, previous⟩ =
        .error (.found path) ∧ IsShortest relationships start path goal) ∨
    ∃ after afterSeen records,
      visit goal node.entity edges ⟨queue.map Reached.entity, seen, previous⟩ =
        .ok ⟨after.map Reached.entity, afterSeen, records⟩ ∧
      IsFrontier relationships start (node :: after) afterSeen records ∧
      goal ∉ afterSeen ∧ seen ⊆ afterSeen ∧ (∀ edge ∈ edges, edge.1 ∈ afterSeen) ∧
      afterSeen.length + queue.length = seen.length + after.length := by
  induction edges generalizing queue seen previous with
  | nil =>
      exact .inr ⟨queue, seen, previous, rfl, sound, unseen, List.Subset.refl _, by simp, rfl⟩
  | cons edge rest ih =>
      obtain ⟨name, index⟩ := edge
      have last := linked _ List.mem_cons_self
      have later := fun edge member => linked edge (List.mem_cons_of_mem _ member)
      rw [visit]
      split
      · rename_i known
        refine (ih sound later unseen).imp_right ?_
        rintro ⟨after, afterSeen, records, visited, kept, missing, more, others, count⟩
        exact ⟨after, afterSeen, records, visited, kept, missing, more,
          List.forall_mem_cons.mpr ⟨more known, others⟩, count⟩
      · rename_i fresh
        have started := sound.layers.start_mem
        dsimp only
        split
        · rename_i isGoal
          subst isGoal
          rw [sound.recorded.walkBack_eq started fresh]
          exact .inl ⟨_, rfl, sound.layers.isShortest_concat last fresh⟩
        · rename_i other
          have missing : goal ∉ seen ++ [name] := by
            rw [List.mem_append, List.mem_singleton, not_or]
            exact ⟨unseen, Ne.symm other⟩
          have next := ih ⟨sound.layers.discover last fresh,
            sound.recorded.discover started fresh index⟩ later missing
          rw [List.map_append] at next
          refine next.imp_right ?_
          rintro ⟨after, afterSeen, records, visited, kept, missing, more, others, count⟩
          obtain ⟨earlier, own⟩ := List.append_subset.mp more
          refine ⟨after, afterSeen, records, visited, kept, missing, earlier,
            List.forall_mem_cons.mpr ⟨own List.mem_cons_self, others⟩, ?_⟩
          simp only [List.length_append, List.length_singleton] at count
          omega

/-- A search finds a shortest path, or all that can be reached was visited; the bound does not stop
it. -/
theorem search_cases {bound : Nat} {queue : List Reached} {seen : List String}
    {previous : Entries String (String × Nat)}
    (sound : IsFrontier relationships start queue seen previous) (unseen : goal ∉ seen)
    (enough : 2 * relationships.length + 1 + queue.length ≤ bound + seen.length) :
    (∃ path, search (adjacency relationships) goal bound
        ⟨queue.map Reached.entity, seen, previous⟩ = .found path ∧
      IsShortest relationships start path goal) ∨
    search (adjacency relationships) goal bound ⟨queue.map Reached.entity, seen, previous⟩ =
        .unreached ∧
      ∀ walk, ¬IsWalk (Links relationships) start walk goal := by
  induction bound generalizing queue seen previous with
  | zero =>
      have few := sound.layers.length_seen_le
      cases queue with
      | nil => exact .inr ⟨by rw [List.map_nil, search], sound.layers.not_isWalk unseen⟩
      | cons node queue =>
          rw [List.length_cons] at enough
          omega
  | succ bound ih =>
      cases queue with
      | nil => exact .inr ⟨by rw [List.map_nil, search], sound.layers.not_isWalk unseen⟩
      | cons node queue =>
          have linked : ∀ edge ∈ edgesOf (adjacency relationships) node.entity,
              LinksLast relationships edge.2 node.entity edge.1 :=
            fun edge member => mem_neighbours_iff.mp member
          rw [List.map_cons, search]
          rcases visit_cases sound linked unseen with ⟨path, visited, shortest⟩ |
            ⟨after, afterSeen, records, visited, kept, missing, -, others, count⟩
          · rw [visited]
            exact .inl ⟨path, rfl, shortest⟩
          · rw [visited]
            have layers : IsLayered relationships start after afterSeen := by
              refine kept.layers.leave fun index next links => ?_
              obtain ⟨last, isLast⟩ := links.exists_last
              exact others _ (mem_neighbours_iff.mpr isLast)
            have left : 2 * relationships.length + 1 + after.length ≤
                bound + afterSeen.length := by
              rw [List.length_cons] at enough
              omega
            exact ih ⟨layers, kept.recorded.leave⟩ missing left

/-- With any bound that is large enough the search comes to the same ending, of its own. -/
theorem search_start_cases (relationships : List Relationship) (differ : start ≠ goal) {bound : Nat}
    (enough : 2 * relationships.length + 1 ≤ bound) :
    (∃ path, search (adjacency relationships) goal bound (.start start) = .found path ∧
      IsShortest relationships start path goal) ∨
    search (adjacency relationships) goal bound (.start start) = .unreached ∧
      ∀ walk, ¬IsWalk (Links relationships) start walk goal := by
  have unseen : goal ∉ [start] := fun member => differ (List.mem_singleton.mp member).symm
  exact search_cases ⟨isLayered_start relationships start, isRecorded_start start⟩ unseen
    (Nat.add_le_add_right enough 1)

/-- Two entities have a shortest path, or they differ and there is no walk between them. -/
theorem path?_cases (relationships : List Relationship) (start goal : String) :
    (∃ path, path? relationships start goal = some path ∧
      IsShortest relationships start path goal) ∨
    path? relationships start goal = none ∧ start ≠ goal ∧
      ∀ walk, ¬IsWalk (Links relationships) start walk goal := by
  unfold path?
  split
  · rename_i same
    exact .inl ⟨[], rfl, same ▸ .nil start, fun _ _ => Nat.zero_le _⟩
  · rename_i differ
    rcases search_start_cases relationships differ (Nat.le_refl _) with
      ⟨path, found, shortest⟩ | ⟨stopped, unreached⟩
    · exact .inl ⟨path, by rw [ending, found]; rfl, shortest⟩
    · exact .inr ⟨by rw [ending, stopped]; rfl, differ, unreached⟩

theorem isShortest_of_path? {path : List Nat} (found : path? relationships start goal = some path) :
    IsShortest relationships start path goal := by
  rcases path?_cases relationships start goal with ⟨other, isOther, shortest⟩ | ⟨stopped, -⟩
  · rw [isOther] at found
    exact Option.some.inj found ▸ shortest
  · rw [stopped] at found
    cases found

namespace IsShortest

variable {path other : List Nat}

theorem isWalk (shortest : IsShortest relationships start path goal) :
    IsWalk (Links relationships) start path goal :=
  shortest.walk.mono fun _ _ _ last => last.1

theorem isWalk_reverse (shortest : IsShortest relationships start path goal) :
    IsWalk (Links relationships) goal path.reverse start :=
  shortest.isWalk.reverse fun _ _ _ links => links.symm

/-- A shortest path is no longer than one back. -/
theorem length_le (shortest : IsShortest relationships start path goal)
    (back : IsShortest relationships goal other start) : path.length ≤ other.length := by
  have least := shortest.least _ back.isWalk_reverse
  rwa [List.length_reverse] at least

end IsShortest

theorem map_length_path?_comm (relationships : List Relationship) (start goal : String) :
    (path? relationships start goal).map List.length =
      (path? relationships goal start).map List.length := by
  rcases path?_cases relationships start goal with ⟨path, found, shortest⟩ | ⟨stopped, -, unreached⟩
  · rcases path?_cases relationships goal start with ⟨other, isOther, least⟩ | ⟨-, -, unreached⟩
    · rw [found, isOther, Option.map_some, Option.map_some,
        Nat.le_antisymm (shortest.length_le least) (least.length_le shortest)]
    · exact (unreached _ shortest.isWalk_reverse).elim
  · rcases path?_cases relationships goal start with ⟨other, -, least⟩ | ⟨isNone, -, -⟩
    · exact (unreached _ least.isWalk_reverse).elim
    · rw [stopped, isNone]

/-- A search between different entities ends by itself: with every bound from the number of ends of
relationships on, its queue is empty or the goal is found and walked back from, always with the same
ending. -/
structure SearchEnds (relationships : List Relationship) (start goal : String) : Prop where
  ends : ending relationships start goal ≠ .exhausted
  same : ∀ bound, 2 * relationships.length + 1 ≤ bound →
    search (adjacency relationships) goal bound (.start start) = ending relationships start goal

/-- A larger bound takes a search that ended no further. -/
theorem search_eq_of_le {graph : Adjacency} {bound larger : Nat} {frontier : Frontier}
    (ends : search graph goal bound frontier ≠ .exhausted) (le : bound ≤ larger) :
    search graph goal larger frontier = search graph goal bound frontier := by
  induction bound generalizing larger frontier with
  | zero =>
      obtain ⟨queue, seen, previous⟩ := frontier
      cases queue with
      | nil => rw [search, search]
      | cons entity queue => exact absurd (by rw [search]; simp) ends
  | succ bound ih =>
      obtain ⟨larger, rfl⟩ := Nat.exists_eq_add_of_lt (Nat.lt_of_succ_le le)
      obtain ⟨queue, seen, previous⟩ := frontier
      cases queue with
      | nil => rw [search, search]
      | cons entity queue =>
          rw [search] at ends ⊢
          rw [search]
          cases visited : visit goal entity (edgesOf graph entity) ⟨queue, seen, previous⟩ with
          | error ending => rfl
          | ok after =>
              rw [visited] at ends
              exact ih ends (Nat.le_add_right bound larger)

theorem searchEnds (relationships : List Relationship) (differ : start ≠ goal) :
    SearchEnds relationships start goal := by
  have ends : ending relationships start goal ≠ .exhausted := by
    rcases search_start_cases relationships differ (Nat.le_refl _) with
      ⟨path, found, -⟩ | ⟨stopped, -⟩
    · rw [ending, found]
      exact Ending.noConfusion
    · rw [ending, stopped]
      exact Ending.noConfusion
  exact ⟨ends, fun bound enough => search_eq_of_le ends enough⟩

/-- The search for a path ends by itself, and a path is found unless the entities differ and no walk leads
from one to the other.  It is a walk by relationships that are each the last declared between its two
entities, and no walk by any relationships is shorter; the path back is as long. -/
theorem path?_exact (relationships : List Relationship) (start goal : String) :
    (start ≠ goal → SearchEnds relationships start goal) ∧
    (path? relationships start goal = none ↔
      start ≠ goal ∧ ∀ walk, ¬IsWalk (Links relationships) start walk goal) ∧
    (∀ path, path? relationships start goal = some path →
      IsWalk (LinksLast relationships) start path goal ∧
        ∀ walk, IsWalk (Links relationships) start walk goal → path.length ≤ walk.length) ∧
    (path? relationships start goal).map List.length =
      (path? relationships goal start).map List.length := by
  refine ⟨searchEnds relationships, ⟨fun stopped => ?_, fun ⟨_, unreached⟩ => ?_⟩,
    fun path found => ?_, map_length_path?_comm relationships start goal⟩
  · rcases path?_cases relationships start goal with ⟨path, found, -⟩ | ⟨-, none⟩
    · rw [stopped] at found
      cases found
    · exact none
  · rcases path?_cases relationships start goal with ⟨path, -, shortest⟩ | ⟨stopped, -⟩
    · exact (unreached path shortest.isWalk).elim
    · exact stopped
  · exact ⟨(isShortest_of_path? found).walk, (isShortest_of_path? found).least⟩

end SemanticQuery.Relationship
