import Mathlib.Data.List.AList

/-! # Hash tables

A hash table is an association list without two entries of one key; the order of its
entries is the order in which a traversal meets them.  Mathlib's `AList` has the
operations and their laws for lookups; the lemmas here are about the entries.
-/

namespace Memprof.Library

abbrev HashTable (κ ν : Type) := AList fun _ : κ => ν

namespace HashTable

variable {κ ν : Type} [DecidableEq κ]

def values (table : HashTable κ ν) : List ν := table.entries.map (·.2)

theorem mem_entries_iff {table : HashTable κ ν} {key : κ} {value : ν} :
    ⟨key, value⟩ ∈ table.entries ↔ table.lookup key = some value :=
  (List.mem_dlookup_iff table.nodupKeys).symm

theorem mem_values_iff {table : HashTable κ ν} {value : ν} :
    value ∈ table.values ↔ ∃ key, table.lookup key = some value := by
  constructor
  · intro member
    obtain ⟨⟨key, _⟩, held, rfl⟩ := List.mem_map.mp member
    exact ⟨key, mem_entries_iff.mp held⟩
  · rintro ⟨key, found⟩
    exact List.mem_map.mpr ⟨⟨key, value⟩, mem_entries_iff.mpr found, rfl⟩

/-- Nothing is listed twice that is under one key only. -/
theorem values_nodup {table : HashTable κ ν}
    (single : ∀ key key' value, table.lookup key = some value → table.lookup key' = some value → key = key') :
    table.values.Nodup := by
  refine List.Nodup.map_on ?_ table.nodupKeys.nodup
  rintro ⟨key, value⟩ held ⟨key', value'⟩ held' rfl
  cases single key key' value (mem_entries_iff.mp held) (mem_entries_iff.mp held')
  rfl

theorem entries_perm_of_lookup_eq {left right : HashTable κ ν}
    (same : ∀ key, left.lookup key = right.lookup key) : left.entries.Perm right.entries :=
  List.lookup_ext left.nodupKeys right.nodupKeys fun key value => by
    have := same key
    simp only [AList.lookup] at this
    rw [this]

theorem entries_insert_of_lookup {table : HashTable κ ν} {key : κ} (absent : table.lookup key = none) (value : ν) :
    (table.insert key value).entries = ⟨key, value⟩ :: table.entries :=
  AList.entries_insert_of_notMem (AList.lookup_eq_none.mp absent)

theorem entries_erase_perm {table : HashTable κ ν} {key : κ} {value : ν} (found : table.lookup key = some value) :
    table.entries.Perm (⟨key, value⟩ :: (table.erase key).entries) := by
  rw [← entries_insert_of_lookup (AList.lookup_erase key table) value]
  apply entries_perm_of_lookup_eq
  intro other
  by_cases same : other = key
  · rw [same, AList.lookup_insert, found]
  · rw [AList.lookup_insert_ne same, AList.lookup_erase_ne same]

/-- A table built by inserting the entries of another one. -/
def copy (table : HashTable κ ν) : HashTable κ ν :=
  table.entries.foldl (fun copied entry => copied.insert entry.1 entry.2) ∅

theorem lookup_foldl_insert (entries : List (Sigma fun _ : κ => ν)) (distinct : entries.NodupKeys)
    (start : HashTable κ ν) (key : κ) :
    (entries.foldl (fun copied entry => copied.insert entry.1 entry.2) start).lookup key =
      (entries.dlookup key).or (start.lookup key) := by
  induction entries generalizing start with
  | nil => rfl
  | cons entry entries inductionHypothesis =>
    obtain ⟨first, value⟩ := entry
    rw [List.nodupKeys_cons] at distinct
    rw [List.foldl_cons, inductionHypothesis distinct.2]
    by_cases same : key = first
    · subst same
      rw [List.dlookup_cons_eq, AList.lookup_insert, List.dlookup_eq_none.mpr distinct.1]
      rfl
    · rw [List.dlookup_cons_ne _ _ same, AList.lookup_insert_ne same]

@[simp] theorem lookup_copy (table : HashTable κ ν) (key : κ) : table.copy.lookup key = table.lookup key := by
  rw [copy, lookup_foldl_insert _ table.nodupKeys]
  simp [AList.lookup]

theorem copy_entries_perm (table : HashTable κ ν) : table.copy.entries.Perm table.entries :=
  entries_perm_of_lookup_eq fun key => lookup_copy table key

end HashTable

end Memprof.Library
