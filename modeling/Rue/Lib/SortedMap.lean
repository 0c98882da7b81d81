import Mathlib.Data.List.Basic
import Mathlib.Data.List.Nodup
import Mathlib.Data.List.Sort
import Mathlib.Order.Defs.LinearOrder

/-! Finite maps kept in the order of their keys. -/

namespace Rue.Lib

universe u v

structure SortedMap (Key : Type u) (Value : Type v) [LinearOrder Key] where
  entries : List (Key × Value)
  sorted : entries.Pairwise fun first second => first.1 < second.1

namespace SortedMap

variable {Key : Type u} {Value : Type v} [LinearOrder Key]

def insertEntry (key : Key) (value : Value) : List (Key × Value) → List (Key × Value)
  | [] => [(key, value)]
  | entry :: rest =>
    if key < entry.1 then (key, value) :: entry :: rest
    else if key = entry.1 then (key, value) :: rest
    else entry :: insertEntry key value rest

theorem mem_insertEntry {key : Key} {value : Value} {entry : Key × Value} {entries : List (Key × Value)}
    (sorted : entries.Pairwise fun first second => first.1 < second.1) :
    entry ∈ insertEntry key value entries ↔ entry = (key, value) ∨ entry ∈ entries ∧ entry.1 ≠ key := by
  induction entries with
  | nil => simp [insertEntry]
  | cons head rest ih =>
    obtain ⟨first, later⟩ := List.pairwise_cons.mp sorted
    simp only [insertEntry]
    split
    next before =>
      have apart : ∀ other ∈ head :: rest, other.1 ≠ key := by
        intro other member
        rcases List.mem_cons.mp member with rfl | member
        · exact ne_of_gt before
        · exact ne_of_gt (lt_trans before (first other member))
      rw [List.mem_cons]
      exact or_congr_right ⟨fun member => ⟨member, apart entry member⟩, And.left⟩
    next notBefore =>
      split
      next same =>
        have apart : ∀ other ∈ rest, other.1 ≠ key := fun other member => same ▸ ne_of_gt (first other member)
        rw [List.mem_cons]
        refine or_congr_right ⟨fun member => ⟨List.mem_cons_of_mem _ member, apart entry member⟩, ?_⟩
        intro ⟨member, different⟩
        rcases List.mem_cons.mp member with rfl | member
        · exact absurd same.symm different
        · exact member
      next different =>
        rw [List.mem_cons, List.mem_cons, ih later]
        constructor
        · rintro (rfl | same | ⟨member, apart⟩)
          · exact Or.inr ⟨Or.inl rfl, fun same => different same.symm⟩
          · exact Or.inl same
          · exact Or.inr ⟨Or.inr member, apart⟩
        · rintro (same | ⟨rfl | member, apart⟩)
          · exact Or.inr (Or.inl same)
          · exact Or.inl rfl
          · exact Or.inr (Or.inr ⟨member, apart⟩)

theorem sorted_insertEntry (key : Key) (value : Value) {entries : List (Key × Value)}
    (sorted : entries.Pairwise fun first second => first.1 < second.1) :
    (insertEntry key value entries).Pairwise fun first second => first.1 < second.1 := by
  induction entries with
  | nil => simp [insertEntry]
  | cons head rest ih =>
    obtain ⟨first, later⟩ := List.pairwise_cons.mp sorted
    simp only [insertEntry]
    split
    next before =>
      refine List.pairwise_cons.mpr ⟨?_, sorted⟩
      intro other member
      rcases List.mem_cons.mp member with rfl | member
      · exact before
      · exact lt_trans before (first other member)
    next notBefore =>
      split
      next same => exact List.pairwise_cons.mpr ⟨fun other member => same ▸ first other member, later⟩
      next different =>
        refine List.pairwise_cons.mpr ⟨?_, ih later⟩
        intro other member
        rcases (mem_insertEntry later).mp member with rfl | ⟨member, -⟩
        · exact lt_of_le_of_ne (not_lt.mp notBefore) (Ne.symm different)
        · exact first other member

def empty : SortedMap Key Value := ⟨[], .nil⟩

def insert (map : SortedMap Key Value) (key : Key) (value : Value) : SortedMap Key Value :=
  ⟨insertEntry key value map.entries, sorted_insertEntry key value map.sorted⟩

def erase (map : SortedMap Key Value) (key : Key) : SortedMap Key Value :=
  ⟨map.entries.filter (·.1 ≠ key), map.sorted.filter _⟩

def find? (map : SortedMap Key Value) (key : Key) : Option Value :=
  (map.entries.find? (·.1 = key)).map Prod.snd

/-- The entries of another map over those of this one. -/
def insertAll (map other : SortedMap Key Value) : SortedMap Key Value :=
  other.entries.foldl (fun map entry => map.insert entry.1 entry.2) map

def size (map : SortedMap Key Value) : Nat := map.entries.length

variable {map other : SortedMap Key Value} {key query : Key} {value : Value}

theorem nodup_keys : (map.entries.map Prod.fst).Nodup := by
  rw [List.Nodup, List.pairwise_map]
  exact map.sorted.imp fun before => ne_of_lt before

theorem key_unique {first second : Key × Value} (here : first ∈ map.entries) (there : second ∈ map.entries)
    (same : first.1 = second.1) : first = second :=
  List.inj_on_of_nodup_map map.nodup_keys here there same

theorem mem_entries : (key, value) ∈ map.entries ↔ map.find? key = some value := by
  constructor
  · intro member
    cases found : map.entries.find? (·.1 = key) with
    | none =>
      have missing := List.find?_eq_none.mp found (key, value) member
      simp at missing
    | some entry =>
      have known : entry.1 = key := by simpa using List.find?_some found
      have same : entry = (key, value) := map.key_unique (List.mem_of_find?_eq_some found) member known
      simp only [find?, found, same, Option.map_some]
  · intro found
    obtain ⟨entry, first, rfl⟩ := Option.map_eq_some_iff.mp found
    have known : entry.1 = key := by simpa using List.find?_some first
    rw [← known]
    exact List.mem_of_find?_eq_some first

theorem find?_eq_none : map.find? key = none ↔ ∀ entry ∈ map.entries, entry.1 ≠ key := by
  constructor
  · intro missing entry member same
    subst same
    rw [map.mem_entries.mp member] at missing
    cases missing
  · intro absent
    cases found : map.find? key with
    | none => rfl
    | some value => exact absurd rfl (absent _ (map.mem_entries.mpr found))

theorem ext_find? (same : ∀ key, map.find? key = other.find? key) : map = other := by
  have members : ∀ entry, entry ∈ map.entries ↔ entry ∈ other.entries := by
    intro entry
    rw [map.mem_entries, other.mem_entries, same]
  have distinct (any : SortedMap Key Value) : any.entries.Nodup := any.nodup_keys.of_map
  have entries : map.entries = other.entries := by
    apply List.Perm.eq_of_pairwise _ map.sorted other.sorted
    · exact (List.perm_ext_iff_of_nodup (distinct map) (distinct other)).mpr members
    · intro first second _ _ before after
      exact absurd before (lt_asymm after)
  cases map
  cases other
  cases entries
  rfl

@[simp] theorem find?_empty : (empty : SortedMap Key Value).find? key = none := rfl

@[simp] theorem find?_insert : (map.insert key value).find? query =
    if query = key then some value else map.find? query := by
  have members (entry : Key × Value) : entry ∈ (map.insert key value).entries ↔
      entry = (key, value) ∨ entry ∈ map.entries ∧ entry.1 ≠ key := mem_insertEntry map.sorted
  split
  next same =>
    rw [← mem_entries, members, same]
    exact Or.inl rfl
  next different =>
    apply Option.ext
    intro found
    rw [← mem_entries, ← mem_entries, members]
    constructor
    · rintro (same | ⟨member, -⟩)
      · exact absurd (Prod.mk.inj same).1 different
      · exact member
    · exact fun member => Or.inr ⟨member, different⟩

@[simp] theorem find?_erase : (map.erase key).find? query = if query = key then none else map.find? query := by
  have members (entry : Key × Value) : entry ∈ (map.erase key).entries ↔ entry ∈ map.entries ∧ entry.1 ≠ key := by
    simp [erase]
  split
  next same =>
    rw [find?_eq_none]
    intro entry member
    rw [same]
    exact ((members entry).mp member).2
  next different =>
    apply Option.ext
    intro found
    rw [← mem_entries, ← mem_entries, members]
    exact ⟨And.left, fun member => ⟨member, different⟩⟩

theorem find?_foldl_insert (entries : List (Key × Value)) (map : SortedMap Key Value)
    (distinct : (entries.map Prod.fst).Nodup) :
    (entries.foldl (fun map entry => map.insert entry.1 entry.2) map).find? query =
      ((entries.find? (·.1 = query)).map Prod.snd).or (map.find? query) := by
  induction entries generalizing map with
  | nil => simp
  | cons entry rest ih =>
    obtain ⟨fresh, distinct⟩ := List.nodup_cons.mp distinct
    rw [List.foldl_cons, ih _ distinct, find?_insert]
    by_cases same : entry.1 = query
    · have absent : rest.find? (·.1 = query) = none := by
        rw [List.find?_eq_none]
        intro other member
        simp only [decide_eq_true_eq]
        intro equal
        exact fresh (List.mem_map.mpr ⟨other, member, equal.trans same.symm⟩)
      rw [absent, if_pos same.symm, List.find?_cons_of_pos (by simpa using same)]
      rfl
    · rw [if_neg (Ne.symm same), List.find?_cons_of_neg (by simpa using same)]

@[simp] theorem find?_insertAll : (map.insertAll other).find? query = (other.find? query).or (map.find? query) :=
  find?_foldl_insert other.entries map other.nodup_keys

theorem erase_insert (absent : map.find? key = none) : (map.insert key value).erase key = map := by
  apply ext_find?
  intro query
  rw [find?_erase, find?_insert]
  split
  next same => rw [same, absent]
  next => rfl

end SortedMap

end Rue.Lib
