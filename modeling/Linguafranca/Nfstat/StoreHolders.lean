import Linguafranca.Nfstat.StoreSteps
import Linguafranca.Support.Custody
import Linguafranca.Support.TreeMap

/-!
# Who holds the lock, the CPUs and the entries

Three parts of the store that do not look at the contents of an entry. The word of
`iptreelock` agrees with the threads that hold it, and each of them has a CPU for itself
(`LockHeld`). An entry that is allocated stands in the tree or is owned by one thread, and
what a thread uses under the lock stands in the tree (`Entrusted`). The files of
`ipcounter_dir` are those of the entries that no thread is deleting (`FilesAgree`). Each
step keeps each part.
-/

namespace Linguafranca.Nfstat

open Run Interleaving SearchTree

/-! ## The lock -/

/-- The lock is held by those who are in its sections, each with the interrupts of its CPU off. -/
structure LockHeld (s : Stores) : Prop where
  lock : s.shared.iptreelock.HeldBy (inside StorePc.Reads s) (inside StorePc.Writes s)
  off : ∀ t cpu, (s.pc t).cpu = some cpu → s.shared.irqsOff cpu = true
  pinned : ∀ t t' cpu, (s.pc t).cpu = some cpu → (s.pc t').cpu = some cpu → t = t'

section Lock

variable {maxtype : UInt8} {ncpu : ℕ} {s : Stores} {t : ℕ} {s' : Store} {pc' : StorePc}
  {cpu : ℕ} {lock : RwLock}

theorem LockHeld.keep (held : LockHeld s) (sameLock : s'.iptreelock = s.shared.iptreelock)
    (sameIrqs : s'.irqsOff = s.shared.irqsOff) (reads : pc'.Reads ↔ (s.pc t).Reads)
    (writes : pc'.Writes ↔ (s.pc t).Writes) (sameCpu : pc'.cpu = (s.pc t).cpu) :
    LockHeld (s.move t s' pc') := by
  have cpus := congrFun (read_move_of_eq s t s' pc' StorePc.cpu sameCpu)
  constructor
  · rw [inside_move_of_iff reads, inside_move_of_iff writes, shared_move, sameLock]
    exact held.lock
  · intro u cpu here
    rw [shared_move, sameIrqs]
    exact held.off u cpu (by rw [← cpus u]; exact here)
  · intro u u' cpu here here'
    exact held.pinned u u' cpu (by rw [← cpus u]; exact here) (by rw [← cpus u']; exact here')

/-- A thread that gets the lock gets a CPU that nobody had. -/
theorem LockHeld.enter (held : LockHeld s) (free : s.shared.irqsOff cpu = false)
    (sameIrqs : s'.irqsOff = Function.update s.shared.irqsOff cpu true)
    (sameCpu : pc'.cpu = some cpu)
    (locked : s'.iptreelock.HeldBy (inside StorePc.Reads (s.move t s' pc'))
      (inside StorePc.Writes (s.move t s' pc'))) : LockHeld (s.move t s' pc') := by
  have claims := (Claims.mk held.off held.pinned).claim (t := t) free
  rw [← sameIrqs, ← sameCpu, ← read_move s t s' pc' StorePc.cpu] at claims
  exact ⟨locked, claims.flagged, claims.once⟩

/-- A thread that gives the lock back leaves its CPU to the others. -/
theorem LockHeld.leave (held : LockHeld s) (inner : (s.pc t).cpu = some cpu)
    (sameIrqs : s'.irqsOff = Function.update s.shared.irqsOff cpu false)
    (noCpu : pc'.cpu = none)
    (unlocked : s'.iptreelock.HeldBy (inside StorePc.Reads (s.move t s' pc'))
      (inside StorePc.Writes (s.move t s' pc'))) : LockHeld (s.move t s' pc') := by
  have claims := (Claims.mk held.off held.pinned).release inner
  rw [← sameIrqs, ← noCpu, ← read_move s t s' pc' StorePc.cpu] at claims
  exact ⟨unlocked, claims.flagged, claims.once⟩

theorem LockHeld.step (held : LockHeld s)
    (took : StoreTook maxtype ncpu s.shared (s.pc t) s' pc') : LockHeld (s.move t s' pc') := by
  generalize here : s.pc t = pc at took
  cases took with
  | locksWrite cpu lock waits free got =>
      refine held.enter free rfl ?_ ?_
      · cases waits <;> rfl
      · rw [inside_move_of_iff, inside_move_of_inside]
        · exact held.lock.writeLock got
        · cases waits <;> trivial
        · rw [here]
          cases waits <;> exact Iff.rfl
  | locksRead cpu lock waits free got =>
      refine held.enter free rfl ?_ ?_
      · cases waits <;> rfl
      · rw [inside_move_of_inside, inside_move_of_iff]
        · apply held.lock.readLock ?_ got
          rw [mem_inside, here]
          cases waits <;> exact id
        · rw [here]
          cases waits <;> exact Iff.rfl
        · cases waits <;> trivial
  | unlocksWrite cpu r gone ret =>
      have inner : (s.pc t).cpu = some cpu := by
        rw [here]
        rfl
      refine held.leave inner rfl ?_ ?_
      · cases gone <;> rfl
      · rw [inside_move_of_iff, inside_move_of_outside]
        · exact held.lock.writeUnlock (by rw [mem_inside, here]; trivial)
        · cases gone <;> exact id
        · rw [here]
          cases gone <;> exact Iff.rfl
  | unlocksRead cpu r ret =>
      have inner : (s.pc t).cpu = some cpu := by
        rw [here]
        rfl
      refine held.leave inner rfl rfl ?_
      rw [inside_move_of_outside, inside_move_of_iff]
      · exact held.lock.readUnlock (by rw [mem_inside, here]; trivial)
      · rw [here]
        exact Iff.rfl
      · exact id
  | finds cpu p ip found =>
      cases found <;> refine held.keep rfl rfl ?_ ?_ ?_ <;> rw [here] <;>
        first | exact Iff.rfl | rfl
  | counts c vector present count =>
      cases count <;> refine held.keep rfl rfl ?_ ?_ ?_ <;> rw [here] <;>
        first | exact Iff.rfl | rfl
  | _ => refine held.keep rfl rfl ?_ ?_ ?_ <;> rw [here] <;> first | exact Iff.rfl | rfl

/-- A writer keeps readers away. -/
theorem LockHeld.no_reader (held : LockHeld s) (writing : (s.pc t).Writes) (u : ℕ) :
    ¬(s.pc u).Reads := by
  intro reads
  have empty := (held.lock.exclusive (t := t) writing).1
  exact absurd (show u ∈ inside StorePc.Reads s from reads) (by rw [empty]; exact id)

end Lock

/-! ## The entries -/

/-- The entries that are allocated. -/
def Store.live (s : Store) : Set ℕ :=
  {p | (s.entries p).isSome}

/-- Every allocated entry is in the tree or with the one request that owns it. -/
abbrev Entrusted (s : Stores) : Prop :=
  Custody s.shared.live (inorder s.shared.iptree) (fun t => (s.pc t).owns)
    (fun t => (s.pc t).borrows)

section Entries

variable {maxtype : UInt8} {ncpu : ℕ} {s : Stores} {t : ℕ} {s' : Store} {pc' : StorePc} {p : ℕ}

theorem live_update_some (store : Store) (entry : NamedEntry) :
    Store.live { store with entries := Function.update store.entries p (some entry) } =
      insert p store.live := by
  ext q
  by_cases same : q = p
  · simp [Store.live, same]
  · simp [Store.live, same]

theorem live_update_none (store : Store) :
    Store.live { store with entries := Function.update store.entries p none } =
      store.live \ {p} := by
  ext q
  by_cases same : q = p
  · simp [Store.live, same]
  · simp [Store.live, same]

theorem live_setSlot (store : Store) (cpu i : ℕ) (vector : NfsCounterVector) :
    (store.setSlot p cpu i vector).live = store.live := by
  ext q
  by_cases same : q = p
  · simp [Store.live, Store.setSlot, same]
  · simp [Store.live, Store.setSlot, same]

/-- A thread that lends as before. -/
theorem Entrusted.ofOwner (borrows : pc'.borrows = (s.pc t).borrows)
    (custody : Custody s'.live (inorder s'.iptree)
      (Function.update (fun u => (s.pc u).owns) t pc'.owns) fun u => (s.pc u).borrows) :
    Entrusted (s.move t s' pc') := by
  unfold Entrusted
  rw [read_move s t s' pc' StorePc.owns, read_move_of_eq s t s' pc' StorePc.borrows borrows]
  exact custody

/-- A thread that owns as before. -/
theorem Entrusted.ofBorrower (owns : pc'.owns = (s.pc t).owns)
    (custody : Custody s'.live (inorder s'.iptree) (fun u => (s.pc u).owns)
      (Function.update (fun u => (s.pc u).borrows) t pc'.borrows)) :
    Entrusted (s.move t s' pc') := by
  unfold Entrusted
  rw [read_move s t s' pc' StorePc.borrows, read_move_of_eq s t s' pc' StorePc.owns owns]
  exact custody

theorem Entrusted.keep (entrusted : Entrusted s) (live : s'.live = s.shared.live)
    (tree : s'.iptree = s.shared.iptree) (owns : pc'.owns = (s.pc t).owns)
    (borrows : pc'.borrows = (s.pc t).borrows) : Entrusted (s.move t s' pc') := by
  unfold Entrusted
  rw [read_move_of_eq s t s' pc' StorePc.owns owns,
    read_move_of_eq s t s' pc' StorePc.borrows borrows]
  show Custody s'.live (inorder s'.iptree) _ _
  rw [live, tree]
  exact entrusted

theorem reads_of_borrows {pc : StorePc} (lent : pc.borrows = some p) : pc.Reads := by
  cases pc with
  | counting | summing => trivial
  | _ => exact absurd lent (by simp [StorePc.borrows])

/-- While a thread writes nothing is lent. -/
theorem LockHeld.unlent (held : LockHeld s) (writing : (s.pc t).Writes) (u : ℕ) :
    (s.pc u).borrows ≠ some p :=
  fun lent => held.no_reader writing u (reads_of_borrows lent)

theorem Entrusted.step (entrusted : Entrusted s) (held : LockHeld s)
    (took : StoreTook maxtype ncpu s.shared (s.pc t) s' pc') : Entrusted (s.move t s' pc') := by
  generalize here : s.pc t = pc at took
  have owns : (s.pc t).owns = pc.owns := congrArg StorePc.owns here
  have borrows : (s.pc t).borrows = pc.borrows := congrArg StorePc.borrows here
  cases took with
  | creates ip new name ipcounterid _ free _ =>
      refine Entrusted.ofOwner borrows.symm ?_
      have dead : new ∉ s.shared.live := by simp [Store.live, free]
      have grown := entrusted.alloc (t := t) dead owns
      rwa [← live_update_some s.shared] at grown
  | fills ip new entry present =>
      refine entrusted.keep ?_ rfl owns.symm borrows.symm
      rw [live_update_some]
      exact Set.insert_eq_of_mem (by simp [Store.live, present])
  | links cpu ip new linked rebalance placed =>
      refine Entrusted.ofOwner borrows.symm ?_
      apply entrusted.publish owns
      rw [Rebalance.inorder_apply]
      exact perm_of_link placed
  | erases cpu ip p rebalance found =>
      refine Entrusted.ofOwner borrows.symm ?_
      apply entrusted.withdraw owns
      · rw [Rebalance.inorder_apply]
        exact perm_of_find found
      · exact held.unlent (t := t) (by rw [here]; trivial)
  | frees r p ret entry present =>
      refine Entrusted.ofOwner borrows.symm ?_
      have shrunk := entrusted.free owns
      rwa [← live_update_none s.shared] at shrunk
  | finds cpu p ip found met =>
      cases found <;> exact Entrusted.ofBorrower owns.symm (entrusted.borrow (mem_of_find met))
  | summed cpu ip p => exact Entrusted.ofBorrower owns.symm entrusted.giveBack
  | counts c vector present count =>
      cases count with
      | readsNumber | readsBytes => exact entrusted.keep rfl rfl owns.symm borrows.symm
      | writesNumber => exact entrusted.keep (live_setSlot _ _ _ _) rfl owns.symm borrows.symm
      | writesBytes =>
          refine Entrusted.ofBorrower owns.symm ?_
          rw [live_setSlot]
          exact entrusted.giveBack
  | unlocksWrite cpu r gone ret =>
      refine entrusted.keep rfl rfl ?_ ?_
      · rw [owns]
        cases gone <;> rfl
      · rw [borrows]
        cases gone <;> rfl
  | locksWrite cpu lock waits =>
      refine entrusted.keep rfl rfl ?_ ?_
      · rw [owns]
        cases waits <;> rfl
      · rw [borrows]
        cases waits <;> rfl
  | locksRead cpu lock waits =>
      refine entrusted.keep rfl rfl ?_ ?_
      · rw [owns]
        cases waits <;> rfl
      · rw [borrows]
        cases waits <;> rfl
  | _ => exact entrusted.keep rfl rfl owns.symm borrows.symm

end Entries

/-! ## The files -/

/-- The entry whose file the thread has taken out of the directory. -/
def StorePc.unlisted : StorePc → Option ℕ
  | deleting _ gone (.drain _) _ | deleting _ gone .free _ => some gone
  | _ => none

/-- The threads that read the file of an entry. -/
def StorePc.Shows (p : ℕ) (pc : StorePc) : Prop :=
  pc.shows = some p

/-- The name of the file of an entry. -/
def Store.nameAt (s : Store) (p : ℕ) : Option (List Char) :=
  (s.entries p).map NamedEntry.name

/-- The files are those of the entries, and each counts its users. -/
structure FilesAgree (s : Stores) : Prop where
  named : ∀ name p, s.shared.files name = some p → s.shared.nameAt p = some name
  listed : ∀ name p, s.shared.nameAt p = some name → (∀ t, (s.pc t).unlisted ≠ some p) →
    s.shared.files name = some p
  unlisted : ∀ t p, (s.pc t).unlisted = some p → ∀ name, s.shared.files name ≠ some p
  users : ∀ p, Counts (s.shared.users p) (inside (StorePc.Shows p) s)

section Files

variable {maxtype : UInt8} {ncpu : ℕ} {s : Stores} {t : ℕ} {s' : Store} {pc pc' : StorePc}
  {p q : ℕ}

theorem owns_of_unlisted (gone : pc.unlisted = some p) : pc.owns = some p := by
  cases pc with
  | deleting r gone' stage ret =>
      cases stage with
      | unlink => exact absurd gone (by simp [StorePc.unlisted])
      | drain | free => exact gone
  | _ => exact absurd gone (by simp [StorePc.unlisted])

theorem live_iff_nameAt (store : Store) : p ∈ store.live ↔ ∃ name, store.nameAt p = some name := by
  simp [Store.live, Store.nameAt, Option.isSome_iff_exists]

theorem nameAt_update_some (store : Store) (entry : NamedEntry) :
    Store.nameAt { store with entries := Function.update store.entries p (some entry) } q =
      if q = p then some entry.name else store.nameAt q := by
  by_cases same : q = p
  · simp [Store.nameAt, same]
  · simp [Store.nameAt, same]

theorem nameAt_update_none (store : Store) :
    Store.nameAt { store with entries := Function.update store.entries p none } q =
      if q = p then none else store.nameAt q := by
  by_cases same : q = p
  · simp [Store.nameAt, same]
  · simp [Store.nameAt, same]

theorem nameAt_setSlot (store : Store) (cpu i : ℕ) (vector : NfsCounterVector) :
    (store.setSlot p cpu i vector).nameAt q = store.nameAt q := by
  by_cases same : q = p
  · simp [Store.nameAt, Store.setSlot, same, Function.comp_def]
  · simp [Store.nameAt, Store.setSlot, same]

theorem FilesAgree.keep (agree : FilesAgree s) (names : ∀ q, s'.nameAt q = s.shared.nameAt q)
    (files : s'.files = s.shared.files) (users : s'.users = s.shared.users)
    (unlisted : pc'.unlisted = (s.pc t).unlisted) (shows : pc'.shows = (s.pc t).shows) :
    FilesAgree (s.move t s' pc') := by
  have gone := congrFun (read_move_of_eq s t s' pc' StorePc.unlisted unlisted)
  refine ⟨?_, ?_, ?_, ?_⟩
  · intro name p file
    rw [shared_move, names]
    rw [shared_move, files] at file
    exact agree.named name p file
  · intro name p here notGone
    rw [shared_move, names] at here
    rw [shared_move, files]
    exact agree.listed name p here fun u => by rw [← gone u]; exact notGone u
  · intro u p here
    rw [shared_move, files]
    exact agree.unlisted u p (by rw [← gone u]; exact here)
  · intro p
    rw [inside_move_of_iff (by rw [StorePc.Shows, StorePc.Shows, shows]), shared_move, users]
    exact agree.users p

/-- The file of an entry that its owner has not taken out of the directory. -/
theorem FilesAgree.listed_of_owner (agree : FilesAgree s) (entrusted : Entrusted s)
    {name : List Char} (owned : (s.pc t).owns = some p) (standing : (s.pc t).unlisted = none)
    (here : s.shared.nameAt p = some name) : s.shared.files name = some p := by
  apply agree.listed name p here
  intro u gone
  rw [entrusted.once u t p (owns_of_unlisted gone) owned, standing] at gone
  exact absurd gone (by simp)

theorem FilesAgree.create (agree : FilesAgree s) (entrusted : Entrusted s) {name : List Char}
    {ipcounterid : UInt32} {entry : NamedEntry} (called : entry.name = name)
    (free : s.shared.entries p = none) (unused : s.shared.files name = none)
    (unlisted : pc'.unlisted = (s.pc t).unlisted) (shows : pc'.shows = (s.pc t).shows) :
    FilesAgree (s.move t
      { s.shared with
        ipcounterid := ipcounterid
        entries := Function.update s.shared.entries p (some entry)
        files := Function.update s.shared.files name (some p) } pc') := by
  have gone := congrFun (read_move_of_eq s t
    { s.shared with
      ipcounterid := ipcounterid
      entries := Function.update s.shared.entries p (some entry)
      files := Function.update s.shared.files name (some p) } pc' StorePc.unlisted unlisted)
  have nameless : s.shared.nameAt p = none := by simp [Store.nameAt, free]
  refine ⟨?_, ?_, ?_, ?_⟩
  · intro other q file
    rw [shared_move]
    refine (nameAt_update_some s.shared entry).trans ?_
    rcases update_some_eq_some file with ⟨same, ours⟩ | ⟨_, before⟩
    · rw [if_pos ours, called, same]
    · rw [if_neg, agree.named other q before]
      intro same
      rw [same] at before
      rw [agree.named other p before] at nameless
      exact absurd nameless (by simp)
  · intro other q here notGone
    have here' := (nameAt_update_some s.shared entry).symm.trans here
    show Function.update s.shared.files name (some p) other = some q
    by_cases same : q = p
    · rw [if_pos same, called, Option.some.injEq] at here'
      rw [← here', Function.update_self, same]
    · rw [if_neg same] at here'
      have file := agree.listed other q here' fun u => by rw [← gone u]; exact notGone u
      rw [Function.update_of_ne, file]
      intro taken
      rw [taken, unused] at file
      exact absurd file (by simp)
  · intro u q here other file
    have before : (s.pc u).unlisted = some q := by rw [← gone u]; exact here
    rcases update_some_eq_some file with ⟨_, ours⟩ | ⟨_, old⟩
    · have standing := (live_iff_nameAt s.shared).mp
        (entrusted.owned u q (owns_of_unlisted before))
      rw [ours, nameless] at standing
      simp at standing
    · exact agree.unlisted u q before other old
  · intro q
    rw [inside_move_of_iff (by rw [StorePc.Shows, StorePc.Shows, shows])]
    exact agree.users q

theorem FilesAgree.unlink (agree : FilesAgree s) {name : List Char}
    (named : s.shared.nameAt p = some name) (file : s.shared.files name = some p)
    (unlisted : pc'.unlisted = some p) (standing : (s.pc t).unlisted = none)
    (shows : pc'.shows = (s.pc t).shows) :
    FilesAgree (s.move t
      { s.shared with files := Function.update s.shared.files name none } pc') := by
  have gone := congrFun (read_move s t
    { s.shared with files := Function.update s.shared.files name none } pc' StorePc.unlisted)
  simp only [unlisted] at gone
  refine ⟨?_, ?_, ?_, ?_⟩
  · intro other q here
    exact agree.named other q (update_none_eq_some here).2
  · intro other q here notGone
    show Function.update s.shared.files name none other = some q
    have alive : ∀ u, (s.pc u).unlisted ≠ some q := by
      intro u before
      refine notGone u ((gone u).trans ?_)
      exact update_eq_some_of_none standing before
    have listed := agree.listed other q here alive
    rw [Function.update_of_ne, listed]
    intro same
    rw [same, file, Option.some.injEq] at listed
    refine notGone t ((gone t).trans ?_)
    rw [Function.update_self, listed]
  · intro u q here other still
    rcases update_none_eq_some still with ⟨elsewhere, old⟩
    rcases update_some_eq_some ((gone u).symm.trans here) with ⟨_, ours⟩ | ⟨_, before⟩
    · rw [ours] at old
      have same := agree.named other p old
      rw [named, Option.some.injEq] at same
      exact elsewhere same.symm
    · exact agree.unlisted u q before other old
  · intro q
    rw [inside_move_of_iff (by rw [StorePc.Shows, StorePc.Shows, shows])]
    exact agree.users q

theorem FilesAgree.free (agree : FilesAgree s) (gone : (s.pc t).unlisted = some p)
    (done : pc'.unlisted = none) (shows : pc'.shows = (s.pc t).shows) :
    FilesAgree (s.move t
      { s.shared with entries := Function.update s.shared.entries p none } pc') := by
  have reads := congrFun (read_move s t
    { s.shared with entries := Function.update s.shared.entries p none } pc' StorePc.unlisted)
  simp only [done] at reads
  refine ⟨?_, ?_, ?_, ?_⟩
  · intro name q file
    refine (nameAt_update_none s.shared).trans ?_
    rw [if_neg, agree.named name q file]
    intro same
    rw [same] at file
    exact agree.unlisted t p gone name file
  · intro name q here notGone
    have here' := (nameAt_update_none s.shared).symm.trans here
    by_cases same : q = p
    · rw [if_pos same] at here'
      exact absurd here' (by simp)
    · rw [if_neg same] at here'
      apply agree.listed name q here'
      intro u before
      by_cases mover : u = t
      · rw [mover, gone, Option.some.injEq] at before
        exact same before.symm
      · refine notGone u ((reads u).trans ?_)
        rw [Function.update_of_ne mover, before]
  · intro u q here
    exact agree.unlisted u q (update_none_eq_some ((reads u).symm.trans here)).2
  · intro q
    rw [inside_move_of_iff (by rw [StorePc.Shows, StorePc.Shows, shows])]
    exact agree.users q

/-- A read of a file begins or ends. -/
theorem FilesAgree.use (agree : FilesAgree s) {count : ℕ}
    (unlisted : pc'.unlisted = (s.pc t).unlisted)
    (others : ∀ q ≠ p, pc'.shows = some q ↔ (s.pc t).shows = some q)
    (counted : Counts count (inside (StorePc.Shows p)
      (s.move t { s.shared with users := Function.update s.shared.users p count } pc'))) :
    FilesAgree (s.move t
      { s.shared with users := Function.update s.shared.users p count } pc') := by
  have gone := congrFun (read_move_of_eq s t
    { s.shared with users := Function.update s.shared.users p count } pc' StorePc.unlisted
    unlisted)
  refine ⟨agree.named, ?_, ?_, ?_⟩
  · intro name q here notGone
    exact agree.listed name q here fun u => by rw [← gone u]; exact notGone u
  · intro u q here
    exact agree.unlisted u q (by rw [← gone u]; exact here)
  · intro q
    show Counts (Function.update s.shared.users p count q) _
    by_cases same : q = p
    · rw [same, Function.update_self]
      exact counted
    · rw [Function.update_of_ne same, inside_move_of_iff (others q same)]
      exact agree.users q

theorem FilesAgree.step (agree : FilesAgree s) (entrusted : Entrusted s)
    (took : StoreTook maxtype ncpu s.shared (s.pc t) s' pc') : FilesAgree (s.move t s' pc') := by
  generalize here : s.pc t = pc at took
  have owns : (s.pc t).owns = pc.owns := congrArg StorePc.owns here
  have unlisted : (s.pc t).unlisted = pc.unlisted := congrArg StorePc.unlisted here
  have shows : (s.pc t).shows = pc.shows := congrArg StorePc.shows here
  cases took with
  | creates ip new name ipcounterid _ free unused =>
      exact agree.create entrusted rfl free unused unlisted.symm shows.symm
  | fills ip new entry present =>
      refine agree.keep ?_ rfl rfl unlisted.symm shows.symm
      intro q
      rw [nameAt_update_some]
      split
      · next same => simp [Store.nameAt, same, present]
      · rfl
  | unlinks r p q ret entry present file =>
      have name : s.shared.nameAt p = some entry.name := by simp [Store.nameAt, present]
      exact agree.unlink name (agree.listed_of_owner entrusted owns unlisted name) rfl unlisted
        shows.symm
  | lacksFile r p ret entry present file =>
      have name : s.shared.nameAt p = some entry.name := by simp [Store.nameAt, present]
      rw [agree.listed_of_owner entrusted owns unlisted name] at file
      exact absurd file (by simp)
  | frees r p ret entry present => exact agree.free unlisted rfl shows.symm
  | opens name p file =>
      refine agree.use unlisted.symm ?_ ?_
      · intro q other
        rw [shows]
        exact iff_of_false (by simp [StorePc.shows, other.symm]) (by simp [StorePc.shows])
      · have entered : StorePc.Shows p
            (.showing name p (slots ncpu maxtype ++ slots ncpu maxtype)) := rfl
        rw [inside_move_of_inside entered]
        apply (agree.users p).enter
        rw [mem_inside, StorePc.Shows, shows]
        simp [StorePc.shows]
  | closes name p =>
      refine agree.use unlisted.symm ?_ ?_
      · intro q other
        rw [shows]
        exact iff_of_false (by simp [StorePc.shows]) (by simp [StorePc.shows, other.symm])
      · rw [inside_move_of_outside (by simp [StorePc.Shows, StorePc.shows])]
        apply (agree.users p).leave
        rw [mem_inside, StorePc.Shows, shows]
        rfl
  | finds cpu p ip found =>
      refine agree.keep (fun _ => rfl) rfl rfl ?_ ?_
      · rw [unlisted]
        cases found <;> rfl
      · rw [shows]
        cases found <;> rfl
  | counts c vector present count =>
      cases count with
      | readsNumber | readsBytes =>
          exact agree.keep (fun _ => rfl) rfl rfl unlisted.symm shows.symm
      | writesNumber | writesBytes =>
          exact agree.keep (fun _ => nameAt_setSlot _ _ _ _) rfl rfl unlisted.symm shows.symm
  | unlocksWrite cpu r gone ret =>
      refine agree.keep (fun _ => rfl) rfl rfl ?_ ?_
      · rw [unlisted]
        cases gone <;> rfl
      · rw [shows]
        cases gone <;> rfl
  | locksWrite cpu lock waits =>
      refine agree.keep (fun _ => rfl) rfl rfl ?_ ?_
      · rw [unlisted]
        cases waits <;> rfl
      · rw [shows]
        cases waits <;> rfl
  | locksRead cpu lock waits =>
      refine agree.keep (fun _ => rfl) rfl rfl ?_ ?_
      · rw [unlisted]
        cases waits <;> rfl
      · rw [shows]
        cases waits <;> rfl
  | _ => exact agree.keep (fun _ => rfl) rfl rfl unlisted.symm shows.symm

end Files

end Linguafranca.Nfstat
