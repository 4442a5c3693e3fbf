import Linguafranca.Support.Interleaving
import Mathlib.Data.Set.Card

/-!
# Readers–writer locks

The word of a lock counts its readers and says whether there is a writer. `HeldBy` relates
it to the threads that hold the lock: the rules follow a thread through the four calls, and
while one thread holds the lock for writing no other thread holds it at all. The word
alone decides whether a call gets the lock; it does not know the threads.
-/

namespace Linguafranca

/-- The word counts the threads of a set. -/
def Counts (count : ℕ) (threads : Set ℕ) : Prop :=
  (count : ℕ∞) = threads.encard

namespace Counts

variable {count t : ℕ} {threads : Set ℕ}

theorem empty : Counts 0 ∅ := by
  simp [Counts]

theorem enter (counts : Counts count threads) (outside : t ∉ threads) :
    Counts (count + 1) (insert t threads) := by
  rw [Counts, Set.encard_insert_of_notMem outside, ← show _ = _ from counts]
  rfl

theorem leave (counts : Counts count threads) (member : t ∈ threads) :
    Counts (count - 1) (threads \ {t}) := by
  have rest : (threads \ {t}).encard + 1 = count := by
    rw [Set.encard_sdiff_singleton_add_one member]
    exact counts.symm
  cases count with
  | zero => simp at rest
  | succ fewer =>
      rw [Nat.cast_succ] at rest
      exact (ENat.add_left_injective_of_ne_top ENat.one_ne_top rest).symm

theorem eq_zero_iff (counts : Counts count threads) : count = 0 ↔ threads = ∅ := by
  rw [← Set.encard_eq_zero, ← show _ = _ from counts, Nat.cast_eq_zero]

end Counts

/-- How many hold the lock for reading, and whether one holds it for writing. -/
structure RwLock where
  readers : ℕ
  writer : Bool

namespace RwLock

/-- A lock that nobody holds. -/
def unlocked : RwLock :=
  ⟨0, false⟩

/-- `none` while the caller has to spin. -/
def readLock (lock : RwLock) : Option RwLock :=
  if lock.writer then none else some { lock with readers := lock.readers + 1 }

/-- A reader leaves. -/
def readUnlock (lock : RwLock) : RwLock :=
  { lock with readers := lock.readers - 1 }

/-- A writer enters when nobody holds the lock. -/
def writeLock (lock : RwLock) : Option RwLock :=
  if lock.writer || lock.readers ≠ 0 then none else some { lock with writer := true }

/-- The writer leaves. -/
def writeUnlock (lock : RwLock) : RwLock :=
  { lock with writer := false }

/-- The word of the lock agrees with the threads that hold it. -/
structure HeldBy (lock : RwLock) (reading writing : Set ℕ) : Prop where
  readers : Counts lock.readers reading
  oneWriter : writing.Subsingleton
  writer : lock.writer = true ↔ writing.Nonempty
  alone : lock.writer = true → reading = ∅

variable {lock taken : RwLock} {reading writing : Set ℕ} {t : ℕ}

theorem HeldBy.readLock (held : HeldBy lock reading writing) (outside : t ∉ reading)
    (got : lock.readLock = some taken) : HeldBy taken (insert t reading) writing := by
  unfold RwLock.readLock at got
  split at got
  · exact absurd got (by simp)
  · next noWriter =>
      cases got
      exact ⟨held.readers.enter outside, held.oneWriter, held.writer,
        fun writer => absurd writer noWriter⟩

theorem HeldBy.readUnlock (held : HeldBy lock reading writing) (member : t ∈ reading) :
    HeldBy lock.readUnlock (reading \ {t}) writing := by
  refine ⟨held.readers.leave member, held.oneWriter, held.writer, ?_⟩
  intro writer
  rw [held.alone writer] at member
  exact absurd member (Set.notMem_empty t)

theorem HeldBy.writeLock (held : HeldBy lock reading writing)
    (got : lock.writeLock = some taken) : HeldBy taken reading (insert t writing) := by
  unfold RwLock.writeLock at got
  split at got
  · exact absurd got (by simp)
  · next nobody =>
      cases got
      simp only [ne_eq, Bool.or_eq_true, decide_eq_true_eq, not_or, not_not] at nobody
      have noReader : reading = ∅ := held.readers.eq_zero_iff.mp nobody.2
      have noWriter : writing = ∅ :=
        Set.not_nonempty_iff_eq_empty.mp fun some => nobody.1 (held.writer.mpr some)
      refine ⟨held.readers, ?_, iff_of_true rfl (Set.insert_nonempty t writing), fun _ => noReader⟩
      rw [noWriter]
      simp

theorem HeldBy.writeUnlock (held : HeldBy lock reading writing) (member : t ∈ writing) :
    HeldBy lock.writeUnlock reading (writing \ {t}) := by
  refine ⟨held.readers, held.oneWriter.anti Set.sdiff_subset, ?_,
    fun writer => absurd writer (by simp [RwLock.writeUnlock])⟩
  rw [held.oneWriter.eq_singleton_of_mem member]
  simp [RwLock.writeUnlock]

/-- A thread that holds the lock for writing is alone. -/
theorem HeldBy.exclusive (held : HeldBy lock reading writing) (member : t ∈ writing) :
    reading = ∅ ∧ writing = {t} :=
  ⟨held.alone (held.writer.mpr ⟨t, member⟩), held.oneWriter.eq_singleton_of_mem member⟩

end RwLock

end Linguafranca
