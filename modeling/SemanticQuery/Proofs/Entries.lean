import Mathlib.Data.List.Induction
import Mathlib.Data.List.Nodup
import Mathlib.Data.List.Sort
import Mathlib.Data.String.Basic
import Mathlib.Logic.Embedding.Basic
import SemanticQuery.Entries

/-!
# Ordered maps and sorted sets

Look-ups in ordered maps by membership of their entries, the lists that are kept under their keys,
and membership in sorted sets.
-/

namespace SemanticQuery

theorem mem_addNew {α : Type} [DecidableEq α] {item other : α} {items : List α} :
    other ∈ addNew item items ↔ other ∈ items ∨ other = item := by
  unfold addNew
  split
  · rename_i known
    constructor
    · exact .inl
    · rintro (member | rfl)
      · exact member
      · exact known
  · simp

theorem nodup_addNew {α : Type} [DecidableEq α] {item : α} {items : List α}
    (distinct : items.Nodup) : (addNew item items).Nodup := by
  unfold addNew
  split
  · exact distinct
  · rename_i unknown
    exact List.nodup_append.mpr ⟨distinct, by simp, by
      intro first member second last same
      rw [List.mem_singleton] at last
      exact unknown (last ▸ same ▸ member)⟩

/-- Adding items one after the other drops later repetitions. -/
theorem foldl_addNew_eq_eraseDups {α : Type} [DecidableEq α] (items : List α) :
    items.foldl (fun known item => addNew item known) [] = items.eraseDups := by
  induction items using List.reverseRecOn with
  | nil => rfl
  | append_singleton items item ih =>
      rw [List.foldl_append, ih, List.foldl_cons, List.foldl_nil, addNew, List.eraseDups_append]
      by_cases known : item ∈ items
      · have dropped : [item].removeAll items = [] := by simp [List.removeAll, known]
        rw [if_pos (List.mem_eraseDups.mpr known), dropped, List.eraseDups_nil, List.append_nil]
      · have kept : [item].removeAll items = [item] := by simp [List.removeAll, known]
        rw [if_neg (mt List.mem_eraseDups.mp known), kept]
        rfl

/-- What holds of each item after those before it still does when the same is so of one more. -/
theorem forall_split_concat {α : Type} {property : List α → α → Prop} {items : List α}
    (each : ∀ before item later, items = before ++ item :: later → property before item) {last : α}
    (holds : property items last) {before later : List α} {item : α}
    (whole : items ++ [last] = before ++ item :: later) : property before item := by
  rcases List.eq_nil_or_concat later with rfl | ⟨front, final, rfl⟩
  · obtain ⟨rfl, same⟩ := List.append_inj' whole rfl
    cases same
    exact holds
  · rw [List.concat_eq_append, ← List.cons_append, ← List.append_assoc] at whole
    obtain ⟨rfl, -⟩ := List.append_inj' whole rfl
    exact each before item front rfl

namespace Entries

variable {κ α : Type} [DecidableEq κ]

theorem mem_of_get? {entries : Entries κ α} {key : κ} {value : α}
    (found : entries.get? key = some value) : (key, value) ∈ entries := by
  induction entries with
  | nil => cases found
  | cons entry rest ih =>
      simp only [get?] at found
      split at found
      · rename_i same
        cases found
        exact same ▸ List.mem_cons_self
      · exact List.mem_cons_of_mem entry (ih found)

/-- With distinct keys, every entry is found. -/
theorem get?_of_mem {entries : Entries κ α} (distinct : (entries.map (·.1)).Nodup) {key : κ}
    {value : α} (member : (key, value) ∈ entries) : entries.get? key = some value := by
  induction entries with
  | nil => cases member
  | cons entry rest ih =>
      rw [List.map_cons, List.nodup_cons] at distinct
      rcases List.mem_cons.mp member with rfl | later
      · simp [get?]
      · have other : entry.1 ≠ key := by
          rintro rfl
          exact distinct.1 (List.mem_map.mpr ⟨_, later, rfl⟩)
        simp [get?, other, ih distinct.2 later]

theorem isSome_get?_iff {entries : Entries κ α} {key : κ} :
    (entries.get? key).isSome = true ↔ key ∈ entries.map (·.1) := by
  induction entries with
  | nil => simp [get?]
  | cons entry rest ih =>
      rw [get?, List.map_cons, List.mem_cons, ← ih]
      split
      · rename_i same
        simp [same]
      · rename_i other
        simp [Ne.symm other]

theorem get?_put {entries : Entries κ α} {key other : κ} {value : α} :
    (entries.put key value).get? other =
      if key = other then some value else entries.get? other := by
  induction entries with
  | nil => rfl
  | cons entry rest ih =>
      by_cases same : entry.1 = key
      · simp only [put, same, if_true, get?]
        split
        · rfl
        · rfl
      · simp only [put, get?, if_neg same, ih]
        by_cases found : entry.1 = other
        · have differ : key ≠ other := by
            rintro rfl
            exact same found
          simp [found, differ]
        · simp [found]

theorem isSome_get?_put {entries : Entries κ α} {key other : κ} {value : α} :
    ((entries.put key value).get? other).isSome = true ↔
      key = other ∨ (entries.get? other).isSome = true := by
  rw [get?_put]
  split
  · rename_i same
    exact ⟨fun _ => .inl same, fun _ => rfl⟩
  · rename_i differ
    exact ⟨.inr, fun known => known.resolve_left differ⟩

/-- A key that has a value keeps it. -/
theorem get?_putNew {entries : Entries κ α} {key other : κ} {value : α} :
    (entries.putNew key value).get? other =
      (entries.get? other).or (if key = other then some value else none) := by
  have get?_append (more : Entries κ α) :
      Entries.get? other (entries ++ more) = (entries.get? other).or (more.get? other) := by
    induction entries with
    | nil => rfl
    | cons entry rest ih =>
        rw [List.cons_append, get?, get?]
        split
        · rfl
        · exact ih
  unfold putNew
  split
  · rename_i known
    split
    · rename_i same
      obtain ⟨old, isOld⟩ := Option.isSome_iff_exists.mp known
      rw [same] at isOld
      rw [isOld, Option.some_or]
    · rw [Option.or_none]
  · exact get?_append _

/-- Keys are put in once. -/
theorem map_fst_putNew {entries : Entries κ α} {key : κ} {value : α} :
    (entries.putNew key value).map (·.1) = addNew key (entries.map (·.1)) := by
  have has_iff : has key entries = true ↔ key ∈ entries.map (·.1) := isSome_get?_iff
  unfold putNew addNew
  by_cases known : key ∈ entries.map (·.1)
  · rw [if_pos known, if_pos (has_iff.mpr known)]
  · rw [if_neg known, if_neg (mt has_iff.mp known), List.map_append, List.map_singleton]

theorem nodup_putNew {entries : Entries κ α} {key : κ} {value : α}
    (distinct : (entries.map (·.1)).Nodup) : ((entries.putNew key value).map (·.1)).Nodup := by
  rw [map_fst_putNew]
  exact nodup_addNew distinct

theorem mem_of_mem_putNew {entries : Entries κ α} {key : κ} {value : α} {entry : κ × α}
    (member : entry ∈ entries.putNew key value) : entry ∈ entries ∨ entry = (key, value) := by
  unfold putNew at member
  split at member
  · exact .inl member
  · exact (List.mem_append.mp member).imp_right List.mem_singleton.mp

theorem mem_of_mem_put {entries : Entries κ α} {key : κ} {value : α} {entry : κ × α}
    (member : entry ∈ entries.put key value) : entry = (key, value) ∨ entry ∈ entries := by
  induction entries with
  | nil => exact .inl (List.mem_singleton.mp member)
  | cons first rest ih =>
      rw [put] at member
      split at member
      · rename_i same
        rcases List.mem_cons.mp member with rfl | later
        · exact .inl (by rw [same])
        · exact .inr (List.mem_cons_of_mem _ later)
      · rcases List.mem_cons.mp member with rfl | later
        · exact .inr List.mem_cons_self
        · exact (ih later).imp_right (List.mem_cons_of_mem _)

/-- A new key is put at the end. -/
theorem put_of_not_mem {entries : Entries κ α} {key : κ} {value : α}
    (fresh : key ∉ entries.map (·.1)) : entries.put key value = entries ++ [(key, value)] := by
  induction entries with
  | nil => rfl
  | cons entry rest ih =>
      rw [List.map_cons, List.mem_cons, not_or] at fresh
      rw [put, if_neg (Ne.symm fresh.1), ih fresh.2, List.cons_append]

/-- The keys of a map stay; a new one comes at the end. -/
theorem map_fst_put {entries : Entries κ α} {key : κ} {value : α} :
    (entries.put key value).map (·.1) = addNew key (entries.map (·.1)) := by
  by_cases known : key ∈ entries.map (·.1)
  · rw [addNew, if_pos known]
    induction entries with
    | nil => cases known
    | cons entry rest ih =>
        rw [put]
        split
        · rfl
        · rename_i differ
          rw [List.map_cons, List.map_cons, ih ((List.mem_cons.mp known).resolve_left (Ne.symm differ))]
  · rw [addNew, if_neg known, put_of_not_mem known, List.map_append, List.map_singleton]

/-! ## Other keys -/

theorem listed_push {lists : Entries κ (List α)} {key other : κ} {item : α} :
    (lists.push key item).listed other =
      if key = other then lists.listed key ++ [item] else lists.listed other := by
  rw [listed, push, get?_put]
  split <;> rfl

section OtherKeys

variable {κ' β : Type} [DecidableEq κ'] (newKey : κ ↪ κ') (f : α → β)

/-- The same entries under other keys, with what their values become. -/
def relabel (entries : Entries κ α) : Entries κ' β :=
  entries.map (Prod.map newKey f)

theorem get?_relabel (entries : Entries κ α) (key : κ) :
    (entries.relabel newKey f).get? (newKey key) = (entries.get? key).map f := by
  induction entries with
  | nil => rfl
  | cons entry rest ih =>
      simp only [relabel, List.map_cons, get?, Prod.map, newKey.apply_eq_iff_eq]
      split
      · rfl
      · exact ih

theorem put_relabel (entries : Entries κ α) (key : κ) (value : α) :
    (entries.relabel newKey f).put (newKey key) (f value) =
      (entries.put key value).relabel newKey f := by
  induction entries with
  | nil => rfl
  | cons entry rest ih =>
      simp only [relabel, List.map_cons, put, Prod.map, newKey.apply_eq_iff_eq]
      split
      · rfl
      · exact congrArg _ ih

theorem put_relabel_id (entries : Entries κ α) (key : κ) (value : α) :
    (entries.relabel newKey id).put (newKey key) value = (entries.put key value).relabel newKey id :=
  put_relabel newKey id entries key value

theorem putNew_relabel (entries : Entries κ α) (key : κ) (value : α) :
    (entries.relabel newKey f).putNew (newKey key) (f value) =
      (entries.putNew key value).relabel newKey f := by
  unfold putNew has
  rw [get?_relabel, Option.isSome_map]
  split
  · rfl
  · rw [relabel, relabel, List.map_append]
    rfl

theorem listed_relabel (lists : Entries κ (List α)) (g : α → β) (key : κ) :
    (lists.relabel newKey (List.map g)).listed (newKey key) = (lists.listed key).map g := by
  rw [listed, listed, get?_relabel]
  cases lists.get? key <;> rfl

theorem push_relabel (lists : Entries κ (List α)) (g : α → β) (key : κ) (item : α) :
    (lists.relabel newKey (List.map g)).push (newKey key) (g item) =
      (lists.push key item).relabel newKey (List.map g) := by
  rw [push, push, listed_relabel, ← put_relabel, List.map_append, List.map_singleton]

end OtherKeys

end Entries

/-! ## Sorted sets -/

section SortedSets

variable {α : Type} {key : α → String}

theorem mem_insertSorted (injective : Function.Injective key) {item other : α} {items : List α} :
    other ∈ insertSorted key item items ↔ other = item ∨ other ∈ items := by
  induction items with
  | nil => simp [insertSorted]
  | cons first rest ih =>
      simp only [insertSorted]
      split
      · simp
      · split
        · rename_i same
          have equal := injective same
          subst equal
          simp
        · simp only [List.mem_cons, ih]
          exact or_left_comm

/-- A sorted set holds the items of the list it was made from. -/
theorem mem_sortedSet (injective : Function.Injective key) {other : α} {items : List α} :
    other ∈ sortedSet key items ↔ other ∈ items := by
  have grown (set : List α) :
      other ∈ items.foldl (fun set item => insertSorted key item set) set ↔
        other ∈ set ∨ other ∈ items := by
    induction items generalizing set with
    | nil => simp
    | cons item rest ih =>
        rw [List.foldl_cons, ih, mem_insertSorted injective, List.mem_cons, or_assoc, or_left_comm]
  simpa [sortedSet] using grown []

theorem pairwise_insertSorted (injective : Function.Injective key) {item : α} {items : List α}
    (sorted : items.Pairwise fun first second => key first < key second) :
    (insertSorted key item items).Pairwise fun first second => key first < key second := by
  induction items with
  | nil => exact List.pairwise_singleton _ _
  | cons first rest ih =>
      obtain ⟨least, others⟩ := List.pairwise_cons.mp sorted
      simp only [insertSorted]
      split
      · rename_i less
        refine List.pairwise_cons.mpr ⟨?_, sorted⟩
        intro other member
        rcases List.mem_cons.mp member with rfl | later
        · exact less
        · exact less.trans (least other later)
      · split
        · exact sorted
        · rename_i notLess differ
          refine List.pairwise_cons.mpr ⟨?_, ih others⟩
          intro other member
          rcases (mem_insertSorted injective).mp member with rfl | later
          · exact lt_of_le_of_ne (not_lt.mp notLess) (Ne.symm differ)
          · exact least other later

theorem pairwise_sortedSet (injective : Function.Injective key) (items : List α) :
    (sortedSet key items).Pairwise fun first second => key first < key second := by
  have grown (set : List α) (sorted : set.Pairwise fun first second => key first < key second) :
      (items.foldl (fun set item => insertSorted key item set) set).Pairwise
        fun first second => key first < key second := by
    induction items generalizing set with
    | nil => exact sorted
    | cons item rest ih => exact ih _ (pairwise_insertSorted injective sorted)
  exact grown [] .nil

/-- A sorted set depends on the items alone, not on their order. -/
theorem sortedSet_congr (injective : Function.Injective key) {items others : List α}
    (same : ∀ item, item ∈ items ↔ item ∈ others) : sortedSet key items = sortedSet key others := by
  have : Std.Irrefl fun first second : α => key first < key second :=
    ⟨fun item => lt_irrefl (key item)⟩
  have : Std.Antisymm fun first second : α => key first < key second :=
    ⟨fun first second less more => absurd more less.asymm⟩
  refine List.Subset.antisymm_of_pairwise (pairwise_sortedSet injective items)
    (pairwise_sortedSet injective others) ?_ ?_
  · intro item member
    exact (mem_sortedSet injective).mpr ((same item).mp ((mem_sortedSet injective).mp member))
  · intro item member
    exact (mem_sortedSet injective).mpr ((same item).mpr ((mem_sortedSet injective).mp member))

end SortedSets

namespace NameSet

variable {name other : String}

theorem mem_insert {names : NameSet} : other ∈ names.insert name ↔ other = name ∨ other ∈ names :=
  mem_insertSorted Function.injective_id

theorem mem_ofList {names : List String} : name ∈ NameSet.ofList names ↔ name ∈ names :=
  mem_sortedSet Function.injective_id

theorem length_insert {names : NameSet} (fresh : name ∉ names) :
    (names.insert name).length = names.length + 1 := by
  unfold insert
  induction names with
  | nil => rfl
  | cons first rest ih =>
      rw [List.mem_cons, not_or] at fresh
      simp only [insertSorted, id]
      split
      · rfl
      · rw [if_neg fresh.1, List.length_cons, ih fresh.2, List.length_cons]

end NameSet

end SemanticQuery
