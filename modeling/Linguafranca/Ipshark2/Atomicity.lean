import Linguafranca.Ipshark2.Ioctl

/-!
# Negative results

A call of `ips_ioctl` with a negative result should have changed nothing. A configuration that
fails takes down what an earlier one had set up, and a client that gives indices back is told
so by `-EFAULT`. The other calls are as they should be.
-/

namespace Linguafranca.Ipshark2

open Run
open Ipshark (Packet)

/-- The fifos of the CPUs and the states of the elements. -/
structure PoolView where
  fifos : List (List ℕ × List ℕ)
  states : List MemState
deriving DecidableEq

/-- The view of a pool. -/
def IpQueue.view (q : IpQueue) : PoolView where
  fifos := q.qptr.map fun c => (c.idle.items, c.ready.items)
  states := (List.range q.m.ipKeyInfoTotalSize).map fun i => (q.m.elem i).state

/-- The pool, the device set and the hooks are as they were. -/
structure Unchanged (s s' : Module) : Prop where
  pool : s'.pool.map IpQueue.view = s.pool.map IpQueue.view
  data : s'.data = s.data
  hooks : s'.hooks = s.hooks

/-- A request that returns an error leaves everything unchanged. -/
def AtomicOnError (jhash : List UInt8 → UInt32 → UInt32) (request : IpsRequest) (s : Module) :
    Prop :=
  ∀ err, (ipsIoctl jhash request s).1 = some err → err < 0 →
    Unchanged s (ipsIoctl jhash request s).2

/-- The index would be taken back: its element is in use and it belongs to a CPU. -/
def Returnable (q : IpQueue) (i : ℕ) : Prop :=
  (q.m.elem i).state = .inuse ∧ ∃ c ∈ q.qptr, c.InRange i

/-- The call fails where there is something to lose: at the pool, which then takes down an
existing one, or at the device set, which then takes down an existing one as well. -/
def ConfigArgs.Discards (args : ConfigArgs) (s : Module) : Prop :=
  args.Copied ∧
    ((¬args.Creatable ∧ s.pool.isSome) ∨
      (args.Creatable ∧ args.devsetCreated = false ∧ (s.pool.isSome ∨ s.data ≠ Data.initial)))

/-- The list is copied and gives an index back. -/
def FreememArgs.Releases (args : FreememArgs) (s : Module) : Prop :=
  args.left = 0 ∧ ∃ q, s.pool = some q ∧ ∃ i ∈ args.idlist, Returnable q i

/-- The request fails after it has changed something. -/
def IpsRequest.Disturbs (request : IpsRequest) (s : Module) : Prop :=
  request.Passes ∧
    ((request.cmd = ipsCmdConfig ∧ request.config.Discards s) ∨
      (request.cmd = ipsCmdFreeMem ∧ request.freemem.Releases s))

/-! ## What a recycle leaves alone -/

section Recycle

variable {q : IpQueue} {cpus : List QueueData} {idlist : List ℕ} {i : ℕ}

theorem recycleScan_handled (counters : Counters) (inside : ∃ c ∈ cpus, c.InRange i) :
    (recycleScan cpus i counters).1 = true := by
  induction cpus generalizing counters with
  | nil => simp at inside
  | cons c cpus ih =>
      rw [recycleScan]
      split
      · rfl
      · next outside =>
          apply ih
          rcases inside with ⟨other, member, inside⟩
          rcases List.mem_cons.mp member with rfl | later
          · exact absurd inside outside
          · exact ⟨other, later, inside⟩

theorem recycleOne_of_not_returnable (kept : ¬Returnable q i) :
    (recycleOne q i).2.qptr = q.qptr ∧ (recycleOne q i).2.m = q.m := by
  rw [recycleOne]
  split
  · exact ⟨rfl, rfl⟩
  · next inuse =>
      have outside : ∀ c ∈ q.qptr, ¬c.InRange i := by
        intro c member inside
        exact kept ⟨not_not.mp inuse, c, member, inside⟩
      simp [recycleScan_of_outside q.counters outside]

theorem recycle_of_not_returnable (kept : ∀ i ∈ idlist, ¬Returnable q i) :
    (ipQueueRecycle idlist q).2.qptr = q.qptr ∧ (ipQueueRecycle idlist q).2.m = q.m := by
  induction idlist generalizing q with
  | nil => exact ⟨rfl, rfl⟩
  | cons i idlist ih =>
      rcases recycleOne_of_not_returnable (kept i List.mem_cons_self) with ⟨queues, area⟩
      have rest : ∀ j ∈ idlist, ¬Returnable (recycleOne q i).2 j := by
        intro j member
        simp only [Returnable, queues, area]
        exact kept j (List.mem_cons_of_mem i member)
      rcases ih rest with ⟨sameQueues, sameArea⟩
      exact ⟨sameQueues.trans queues, sameArea.trans area⟩

@[simp]
theorem total_recycleOne (q : IpQueue) (i : ℕ) :
    (recycleOne q i).2.m.ipKeyInfoTotalSize = q.m.ipKeyInfoTotalSize := by
  rw [recycleOne]
  split
  · rfl
  · dsimp only
    split <;> rfl

@[simp]
theorem total_ipQueueRecycle (idlist : List ℕ) (q : IpQueue) :
    (ipQueueRecycle idlist q).2.m.ipKeyInfoTotalSize = q.m.ipKeyInfoTotalSize := by
  induction idlist generalizing q with
  | nil => rfl
  | cons i idlist ih => exact (ih (recycleOne q i).2).trans (total_recycleOne q i)

/-! ## What a recycle changes -/

theorem spent_recycleOne (j : ℕ) (spent : (q.m.elem i).state ≠ .inuse) :
    ((recycleOne q j).2.m.elem i).state ≠ .inuse := by
  rw [recycleOne]
  split
  · exact spent
  · dsimp only
    split
    · rw [elem_release, Function.update_apply]
      split
      · simp
      · exact spent
    · exact spent

theorem spent_recycle (idlist : List ℕ) (spent : (q.m.elem i).state ≠ .inuse) :
    ((ipQueueRecycle idlist q).2.m.elem i).state ≠ .inuse := by
  induction idlist generalizing q with
  | nil => exact spent
  | cons j idlist ih => exact ih (spent_recycleOne j spent)

theorem spent_of_inRange (inside : ∃ c ∈ q.qptr, c.InRange i) :
    ((recycleOne q i).2.m.elem i).state ≠ .inuse := by
  rw [recycleOne]
  split
  · next unused => exact unused
  · simp [recycleScan_handled q.counters inside]

theorem exists_after {cpus' : List QueueData} {c : QueueData}
    (within : List.Forall₂ Within cpus cpus') (member : c ∈ cpus) : ∃ c' ∈ cpus', Within c c' := by
  induction within with
  | nil => cases member
  | cons first rest ih =>
      rcases List.mem_cons.mp member with rfl | later
      · exact ⟨_, List.mem_cons_self, first⟩
      · rcases ih later with ⟨c', present, same⟩
        exact ⟨c', List.mem_cons_of_mem _ present, same⟩

theorem inRange_recycleOne (j : ℕ) (inside : ∃ c ∈ q.qptr, c.InRange i) :
    ∃ c ∈ (recycleOne q j).2.qptr, c.InRange i := by
  rw [recycleOne]
  split
  · exact inside
  · have scanned := scanned_recycleScan q.qptr j q.counters
    rcases inside with ⟨c, member, inside⟩
    rcases exists_after (scanned.imp fun _ _ => Scanned.within) member with ⟨c', present, within⟩
    exact ⟨c', present, within.inRange_iff.mpr inside⟩

/-- Every index of the list that a CPU owns is not in use afterwards. -/
theorem spent_of_mem (listed : i ∈ idlist) (inside : ∃ c ∈ q.qptr, c.InRange i) :
    ((ipQueueRecycle idlist q).2.m.elem i).state ≠ .inuse := by
  induction idlist generalizing q with
  | nil => cases listed
  | cons j idlist ih =>
      rcases List.mem_cons.mp listed with rfl | later
      · exact spent_recycle idlist (spent_of_inRange inside)
      · exact ih later (inRange_recycleOne j inside)

theorem Homed.lt_of_inRange (homed : Homed q) (inside : ∃ c ∈ q.qptr, c.InRange i) :
    i < q.m.ipKeyInfoTotalSize := by
  rcases inside with ⟨c, member, inside⟩
  exact lt_of_lt_of_le inside.2 (homed.ranges.bounds.2 c member).2.2

theorem view_recycle_iff (homed : Homed q) (idlist : List ℕ) :
    (ipQueueRecycle idlist q).2.view = q.view ↔ ∀ i ∈ idlist, ¬Returnable q i := by
  constructor
  · rintro same i listed ⟨inuse, inside⟩
    have below := homed.lt_of_inRange inside
    have states : (ipQueueRecycle idlist q).2.view.states = q.view.states := by rw [same]
    simp only [IpQueue.view, total_ipQueueRecycle, List.map_inj_left, List.mem_range] at states
    exact spent_of_mem listed inside ((states i below).trans inuse)
  · intro kept
    rcases recycle_of_not_returnable kept with ⟨queues, area⟩
    simp only [IpQueue.view, queues, area]

end Recycle

/-! ## The calls -/

section Calls

variable {jhash : List UInt8 → UInt32 → UInt32} {request : IpsRequest} {s : Module}

theorem Unchanged.refl (s : Module) : Unchanged s s :=
  ⟨rfl, rfl, rfl⟩

theorem config_atomic_iff (args : ConfigArgs) :
    (∀ err, (ipsConfig jhash args s).ret = some err → err < 0 →
        Unchanged s (ipsConfig jhash args s).state) ↔ ¬args.Discards s := by
  have outcome := outcome_ipsConfig jhash args s
  generalize (ipsConfig jhash args s).ret = ret, (ipsConfig jhash args s).state = s' at outcome ⊢
  cases outcome with
  | uncopied left uncopied =>
      refine ⟨fun _ discards => uncopied discards.1, ?_⟩
      intro _ err _ _
      exact Unchanged.refl s
  | uncreated err copied refused negative =>
      simp only [ConfigArgs.Discards, copied, refused, not_false_eq_true, true_and, false_and,
        or_false]
      constructor
      · intro atomic pool
        have unchanged := (atomic err rfl negative).pool
        rcases Option.isSome_iff_exists.mp pool with ⟨q, present⟩
        simp [Module.ipQueueExit, present] at unchanged
      · intro missing _ _ _
        have none : s.pool = none := by simpa using missing
        exact ⟨by simp [Module.ipQueueExit, none], rfl, rfl⟩
  | unset q pooled unset =>
      simp only [ConfigArgs.Discards, pooled.copied, pooled.creatable, unset, true_and,
        not_true_eq_false, false_and, false_or]
      constructor
      · intro atomic lost
        have unchanged := atomic (-1) rfl (by omega)
        rcases lost with pool | data
        · rcases Option.isSome_iff_exists.mp pool with ⟨old, present⟩
          have same := unchanged.pool
          simp [Module.ipQueueExit, present] at same
        · exact data unchanged.data.symm
      · intro nothing _ _ _
        rcases not_or.mp nothing with ⟨missing, data⟩
        have none : s.pool = none := by simpa using missing
        exact ⟨by simp [Module.ipQueueExit, none], (not_not.mp data).symm, rfl⟩
  | unordered q pooled set unordered =>
      simp [ConfigArgs.Discards, pooled.creatable, set]
  | unwritten q pooled set ordered back =>
      simp [ConfigArgs.Discards, pooled.creatable, set]
  | installed q data pooled set ordered back =>
      simp [ConfigArgs.Discards, pooled.creatable, set]

/-- A call that gives indices back fails in any case, so that none may be taken back. -/
theorem free_atomic_iff (args : FreememArgs) (homed : HomedPool s) :
    Unchanged s (ipsFreemem args s).2.2 ↔ ¬args.Releases s := by
  simp only [ipsFreemem, FreememArgs.Releases]
  split
  · next unread => simp [unread, Unchanged.refl s]
  · next read =>
      simp only [not_not.mp read, true_and]
      cases pool : s.pool with
      | none =>
          simp only [Option.map_none, reduceCtorEq, false_and, exists_false, not_false_eq_true,
            iff_true]
          exact ⟨by simp [pool], rfl, rfl⟩
      | some q =>
          have shows := view_recycle_iff (homed q pool) args.idlist
          constructor
          · rintro unchanged ⟨q', ⟨⟩, i, listed, returnable⟩
            have same := unchanged.pool
            simp only [pool, Option.map_some, Option.some.injEq] at same
            exact shows.mp same i listed returnable
          · intro none
            refine ⟨?_, rfl, rfl⟩
            simp only [pool, Option.map_some, Option.some.injEq]
            apply shows.mpr
            intro i listed returnable
            exact none ⟨q, rfl, i, listed, returnable⟩

theorem atomic_iff (homed : HomedPool s) :
    AtomicOnError jhash request s ↔ ¬request.Disturbs s := by
  have calls : Calls jhash request s (ipsIoctl jhash request s) := calls_ipsIoctl
  have other : ipsCmdFreeMem ≠ ipsCmdConfig := by decide
  have apart : ipsCmdFetchInfo ≠ ipsCmdConfig ∧ ipsCmdFetchInfo ≠ ipsCmdFreeMem := by decide
  simp only [AtomicOnError, IpsRequest.Disturbs]
  generalize ipsIoctl jhash request s = result at calls ⊢
  cases calls with
  | turnedDown err refused negative =>
      refine ⟨fun _ disturbs => refused disturbs.1, ?_⟩
      intro _ _ _ _
      exact Unchanged.refl s
  | config passes cmd =>
      simp only [passes, cmd, other.symm, true_and, false_and, or_false]
      exact config_atomic_iff request.config
  | fetch ret passes cmd returned =>
      simp only [cmd, apart, false_and, or_self, and_false, not_false_eq_true, iff_true]
      intro err some negative
      have fetches := fetches_ipsFetch request.remaining request.interrupted s
      have negative : (ipsFetch request.remaining request.interrupted s).2.1 < 0 := by
        rwa [← returned err some]
      generalize ipsFetch request.remaining request.interrupted s = fetched at fetches negative ⊢
      cases fetches with
      | woken many => simp at negative
      | signalled few signal => exact Unchanged.refl s
      | late few quiet some => simp at negative
      | idle quiet none => exact Unchanged.refl s
  | free ret passes cmd returned =>
      simp only [passes, cmd, other, true_and, false_and, false_or]
      rw [← free_atomic_iff request.freemem homed]
      constructor
      · intro atomic
        cases pool : s.pool with
        | none =>
            apply (free_atomic_iff request.freemem homed).mpr
            rintro ⟨-, q, present, -⟩
            simp [pool] at present
        | some q => exact atomic (-efault) (returned (by simp [pool])) (by simp [efault])
      · intro unchanged _ _ _
        exact unchanged
  | unknown config free =>
      simp only [config, free, false_and, or_self, and_false, not_false_eq_true, iff_true]
      intro _ _ _
      exact Unchanged.refl s

end Calls

/-- In every state that events at the device lead to, a call is atomic on error exactly when it
does not disturb what is there. -/
theorem ioctl_atomic_iff (jhash : List UInt8 → UInt32 → UInt32) (events : List DeviceEvent)
    (request : IpsRequest) :
    AtomicOnError jhash request (run (deviceStep jhash) Module.initial events) ↔
      ¬request.Disturbs (run (deviceStep jhash) Module.initial events) := by
  apply atomic_iff
  exact device_invariant (fun s event homed => homedPool_step event homed) events
    (homedPool_of_none rfl)

/-- The index is taken back and the client is told that it is not. -/
theorem freeFirst_not_atomic :
    ¬AtomicOnError (fun _ _ => 0) freeFirst
      (run (deviceStep fun _ _ => 0) Module.initial oneFetched) := by
  intro atomic
  have unchanged := atomic (-efault) (by decide) (by decide)
  exact absurd unchanged.pool (by decide)

end Linguafranca.Ipshark2
