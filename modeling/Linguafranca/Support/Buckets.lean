import Mathlib.Data.List.Nodup
import Mathlib.Data.List.Dedup
import Mathlib.Data.List.Perm.Basic
import Mathlib.Data.List.Perm.Subperm
import Mathlib.Data.Set.Insert
import Mathlib.Logic.Function.Basic

/-!
# Tables of buckets

Entries with a key are kept in the bucket at the place of their key. A table is filed when
every entry is in its bucket and no bucket holds a key twice; then a key is in the table
exactly when it is in its own bucket, and the table as a whole holds no key twice either.
-/

namespace Linguafranca.Buckets

universe u v

variable {Entry : Type u} {Key : Type v}

/-- Every entry lies in the bucket of its key, and no key lies in a bucket twice. -/
structure Filed (key : Entry → Key) (place : Key → ℕ) (table : ℕ → List Entry) : Prop where
  placed : ∀ bucket, ∀ entry ∈ table bucket, place (key entry) = bucket
  once : ∀ bucket, ((table bucket).map key).Nodup

/-- The keys of the entries. -/
def keys (key : Entry → Key) (table : ℕ → List Entry) : Set Key :=
  {k | ∃ bucket, ∃ entry ∈ table bucket, key entry = k}

/-- The table with one more entry. -/
def push (key : Entry → Key) (place : Key → ℕ) (table : ℕ → List Entry) (entry : Entry) :
    ℕ → List Entry :=
  Function.update table (place (key entry)) (entry :: table (place (key entry)))

variable {key : Entry → Key} {place : Key → ℕ} {table : ℕ → List Entry} {entry : Entry} {k : Key}

theorem filed_empty : Filed key place fun _ => [] :=
  ⟨fun _ _ member => absurd member List.not_mem_nil, fun _ => List.nodup_nil⟩

@[simp]
theorem keys_empty : keys key (fun _ => []) = ∅ := by
  simp [keys]

theorem Filed.mem_keys_iff (filed : Filed key place table) :
    k ∈ keys key table ↔ ∃ entry ∈ table (place k), key entry = k := by
  constructor
  · rintro ⟨bucket, entry, member, rfl⟩
    rw [filed.placed bucket entry member]
    exact ⟨entry, member, rfl⟩
  · rintro ⟨entry, member, same⟩
    exact ⟨place k, entry, member, same⟩

theorem mem_push {bucket : ℕ} {other : Entry} :
    other ∈ push key place table entry bucket ↔
      other = entry ∧ bucket = place (key entry) ∨ other ∈ table bucket := by
  by_cases own : bucket = place (key entry)
  · subst own
    simp [push]
  · simp [push, own]

theorem keys_push :
    keys key (push key place table entry) = insert (key entry) (keys key table) := by
  ext k
  simp only [keys, Set.mem_ofPred_eq, mem_push, Set.mem_insert_iff]
  constructor
  · rintro ⟨bucket, other, ⟨rfl, -⟩ | member, rfl⟩
    · exact Or.inl rfl
    · exact Or.inr ⟨bucket, other, member, rfl⟩
  · rintro (rfl | ⟨bucket, other, member, rfl⟩)
    · exact ⟨place (key entry), entry, Or.inl ⟨rfl, rfl⟩, rfl⟩
    · exact ⟨bucket, other, Or.inr member, rfl⟩

theorem Filed.push (filed : Filed key place table) (fresh : key entry ∉ keys key table) :
    Filed key place (push key place table entry) := by
  constructor
  · intro bucket other member
    rcases mem_push.mp member with ⟨rfl, rfl⟩ | old
    · rfl
    · exact filed.placed bucket other old
  · intro bucket
    by_cases own : bucket = place (key entry)
    · subst own
      simp only [Buckets.push, Function.update_self, List.map_cons, List.nodup_cons]
      refine ⟨?_, filed.once _⟩
      intro member
      rcases List.mem_map.mp member with ⟨other, old, same⟩
      exact fresh ⟨_, other, old, same⟩
    · simpa only [Buckets.push, Function.update_of_ne own] using filed.once bucket

/-- All entries of the first buckets. -/
def entries (size : ℕ) (table : ℕ → List Entry) : List Entry :=
  (List.range size).flatMap table

/-- The entries of one bucket and those of the others. -/
theorem exists_entries {size bucket : ℕ} (table : ℕ → List Entry) (inside : bucket < size) :
    ∃ rest, (entries size table).Perm (table bucket ++ rest) ∧
      ∀ other : List Entry,
        (entries size (Function.update table bucket other)).Perm (other ++ rest) := by
  have split : (List.range size).Perm (bucket :: (List.range size).erase bucket) :=
    List.perm_cons_erase (List.mem_range.mpr inside)
  refine ⟨((List.range size).erase bucket).flatMap table, split.flatMap_right table, ?_⟩
  intro other
  apply (split.flatMap_right _).trans
  rw [List.flatMap_cons, Function.update_self]
  apply List.Perm.append_left other
  apply List.Perm.of_eq
  apply List.flatMap_congr
  intro k member
  rw [Function.update_of_ne]
  exact fun same => List.nodup_range.not_mem_erase (same ▸ member)

theorem Filed.nodup_entries (filed : Filed key place table) (size : ℕ) :
    ((entries size table).map key).Nodup := by
  rw [entries, List.map_flatMap, List.nodup_flatMap]
  refine ⟨fun bucket _ => filed.once bucket, ?_⟩
  apply List.Pairwise.imp _ List.nodup_range
  intro first second apart k inFirst inSecond
  rcases List.mem_map.mp inFirst with ⟨one, oneIn, rfl⟩
  rcases List.mem_map.mp inSecond with ⟨two, twoIn, same⟩
  apply apart
  rw [← filed.placed first one oneIn, ← filed.placed second two twoIn, same]

theorem Filed.mem_entries_iff (filed : Filed key place table) {size : ℕ}
    (small : ∀ k, place k < size) : k ∈ (entries size table).map key ↔ k ∈ keys key table := by
  simp only [entries, List.mem_map, List.mem_flatMap, List.mem_range]
  constructor
  · rintro ⟨entry, ⟨bucket, -, member⟩, rfl⟩
    exact ⟨bucket, entry, member, rfl⟩
  · intro member
    rcases filed.mem_keys_iff.mp member with ⟨entry, inPlace, rfl⟩
    exact ⟨entry, ⟨_, small _, inPlace⟩, rfl⟩

/-- A table with the keys of a list holds each of them once. -/
theorem Filed.entries_perm_dedup [DecidableEq Key] (filed : Filed key place table) {size : ℕ}
    (small : ∀ k, place k < size) {listed : List Key}
    (same : ∀ k, k ∈ keys key table ↔ k ∈ listed) :
    ((entries size table).map key).Perm listed.dedup := by
  rw [List.perm_ext_iff_of_nodup (filed.nodup_entries size) listed.nodup_dedup]
  intro k
  rw [filed.mem_entries_iff small, same, List.mem_dedup]

end Linguafranca.Buckets
