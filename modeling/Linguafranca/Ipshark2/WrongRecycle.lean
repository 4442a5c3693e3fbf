import Linguafranca.Ipshark2.Pool

/-!
# Recycles of indices the client does not hold

`ip_queue_recycle` only tests whether an element is in use, which it also is while its index
waits in a ready fifo. A recycle of an idle or a returned index does nothing, and so do
repetitions; a recycle of a ready index puts it on an idle fifo as well. The pool is robust
exactly in the runs without one.
-/

namespace Linguafranca.Ipshark2

open Run

/-- The index is in a ready queue. -/
def IsReady (q : IpQueue) (i : ℕ) : Prop :=
  ∃ c ∈ q.qptr, i ∈ c.ready.items

/-- The index is in an idle queue. -/
def IsIdle (q : IpQueue) (i : ℕ) : Prop :=
  ∃ c ∈ q.qptr, i ∈ c.idle.items

instance (q : IpQueue) (i : ℕ) : Decidable (IsReady q i) :=
  inferInstanceAs (Decidable (∃ c ∈ q.qptr, i ∈ c.ready.items))

instance (q : IpQueue) (i : ℕ) : Decidable (IsIdle q i) :=
  inferInstanceAs (Decidable (∃ c ∈ q.qptr, i ∈ c.idle.items))

/-- The indices in all fifos. -/
def fifos (q : IpQueue) : List ℕ :=
  q.qptr.flatMap fun c => c.idle.items ++ c.ready.items

/-- A step leaves the queued indices and their records alone, and no index is twice in the
fifos after it. -/
structure Robust (q q' : IpQueue) : Prop where
  queued : ∀ i, IsReady q i → ¬IsIdle q' i
  kept : ∀ i, IsReady q i → (q'.m.elem i).info = (q.m.elem i).info
  once : (fifos q').Nodup

/-- No recycle names a ready index. -/
def SparesReady (q : IpQueue) (event : PoolEvent) : Prop :=
  ∀ idlist, event = .recycle idlist → ∀ i ∈ idlist, ¬IsReady q i

section

variable {q q' : IpQueue} {out out' idlist : List ℕ} {i : ℕ}

/-! ## What the invariant says of the fifos -/

theorem PoolInv.inuse_of_ready (inv : PoolInv q out) (ready : IsReady q i) :
    i < q.m.ipKeyInfoTotalSize ∧ (q.m.elem i).state = .inuse := by
  rcases ready with ⟨c, member, inReady⟩
  have home := (inv.cpus c member).readyHome i inReady
  have upper := (inv.ranges.bounds.2 c member).2.2
  exact ⟨lt_of_lt_of_le home.2 upper, (inv.cpus c member).readyInuse i inReady⟩

theorem PoolInv.not_inuse_of_idle (inv : PoolInv q out) (idle : IsIdle q i) :
    (q.m.elem i).state ≠ .inuse := by
  rcases idle with ⟨c, member, inIdle⟩
  exact (inv.cpus c member).idleFree i inIdle

theorem PoolInv.held_of_inuse (inv : PoolInv q out) (below : i < q.m.ipKeyInfoTotalSize)
    (inuse : (q.m.elem i).state = .inuse) (unready : ¬IsReady q i) : i ∈ out := by
  rcases inv.ranges.covers (Nat.zero_le i) below with ⟨before, c, after, queues, inside⟩
  have member : c ∈ q.qptr := by simp [queues]
  have once := (inv.cpus c member).once i inside
  have notIdle : i ∉ c.idle.items := by
    intro idle
    exact (inv.cpus c member).idleFree i idle inuse
  have notReady : i ∉ c.ready.items := by
    intro ready
    exact unready ⟨c, member, ready⟩
  apply List.count_pos_iff.mp
  have noIdle := List.count_eq_zero.mpr notIdle
  have noReady := List.count_eq_zero.mpr notReady
  omega

theorem PoolInv.nodup_fifos (inv : PoolInv q out) : (fifos q).Nodup := by
  have partitioned := inv.partitioned
  apply List.nodup_iff_count_le_one.mpr
  intro i
  by_cases below : i < q.m.ipKeyInfoTotalSize
  · have once := partitioned.once i below
    simp only [fifos, List.count_flatMap, Function.comp_def, List.count_append]
    omega
  · have absent : i ∉ fifos q := by
      intro member
      rcases List.mem_flatMap.mp member with ⟨c, present, inFifo⟩
      have home := partitioned.home c present i (List.mem_append.mp inFifo)
      exact below (partitioned.inside i (Or.inr ⟨c, present, home⟩))
    have none := List.count_eq_zero.mpr absent
    omega

/-- A step that keeps the invariant and the elements of the ready indices is robust. -/
theorem robust_of_inv (inv : PoolInv q out) (inv' : PoolInv q' out')
    (same : ∀ i, IsReady q i → q'.m.elem i = q.m.elem i) : Robust q q' where
  queued := by
    intro i ready idle
    apply inv'.not_inuse_of_idle idle
    have inuse := (inv.inuse_of_ready ready).2
    rwa [same i ready]
  kept := by
    intro i ready
    rw [same i ready]
  once := inv'.nodup_fifos

/-! ## Puts and deliveries -/

theorem PoolInv.elem_put (inv : PoolInv q out) (cpu : ℕ) (src : IpKeyInfo) (ready : IsReady q i) :
    (ipQueuePut cpu src q).m.elem i = q.m.elem i := by
  rcases inv.put_cases cpu src with ⟨-, area, -⟩ | ⟨j, before, c, c', after, accepts⟩
  · rw [area]
  · have other : i ≠ j := by
      rintro rfl
      have idle : IsIdle q i := ⟨c, by simp [accepts.queues], by simp [accepts.idle]⟩
      exact inv.not_inuse_of_idle idle (inv.inuse_of_ready ready).2
    rw [accepts.area, elem_fill, Function.update_of_ne other]

/-! ## Recycles -/

/-- The scan takes nothing out of an idle fifo. -/
theorem exists_idle_of_scanned {cpus cpus' : List QueueData}
    (scanned : List.Forall₂ Scanned cpus cpus') (idle : ∃ c ∈ cpus, i ∈ c.idle.items) :
    ∃ c ∈ cpus', i ∈ c.idle.items := by
  induction scanned with
  | nil => exact idle
  | cons first rest ih =>
      rcases idle with ⟨c, member, inIdle⟩
      rcases List.mem_cons.mp member with rfl | later
      · cases first with
        | passed => exact ⟨_, List.mem_cons_self, inIdle⟩
        | took j inside => exact ⟨_, List.mem_cons_self, Kfifo.subset_put _ j inIdle⟩
      · rcases ih ⟨c, later, inIdle⟩ with ⟨c', present, still⟩
        exact ⟨c', List.mem_cons_of_mem _ present, still⟩

theorem isIdle_recycleOne (j : ℕ) (idle : IsIdle q i) : IsIdle (recycleOne q j).2 i := by
  rw [recycleOne]
  split
  · exact idle
  · exact exists_idle_of_scanned (scanned_recycleScan q.qptr j q.counters) idle

theorem isIdle_ipQueueRecycle (idlist : List ℕ) (idle : IsIdle q i) :
    IsIdle (ipQueueRecycle idlist q).2 i := by
  induction idlist generalizing q with
  | nil => exact idle
  | cons j idlist ih => exact ih (isIdle_recycleOne j idle)

theorem PoolInv.idle_of_wrong (inv : PoolInv q out) (ready : IsReady q i) :
    IsIdle (recycleOne q i).2 i := by
  rcases inv.inuse_of_ready ready with ⟨below, inuse⟩
  rcases inv.returns_of_inuse below inuse with ⟨before, c, c', after, returns⟩
  exact ⟨c', by simp [returns.queues'], by simp [returns.idle]⟩

theorem Returns.isReady_iff {before after : List QueueData} {c c' : QueueData}
    (returns : Returns q q' i before c c' after) (j : ℕ) : IsReady q' j ↔ IsReady q j := by
  simp [IsReady, returns.queues, returns.queues', returns.ready, or_and_right, exists_or]

/-- A turn for an index that is not ready keeps the invariant, the ready fifos and all other
elements. -/
theorem PoolInv.recycleOne_unready (inv : PoolInv q out) (unready : ¬IsReady q i) :
    ∃ out', PoolInv (recycleOne q i).2 out' ∧
      (∀ j, IsReady (recycleOne q i).2 j ↔ IsReady q j) ∧
      ∀ j, j ≠ i → (recycleOne q i).2.m.elem j = q.m.elem j := by
  by_cases inuse : (q.m.elem i).state = .inuse
  · by_cases below : i < q.m.ipKeyInfoTotalSize
    · rcases inv.returns_of_inuse below inuse with ⟨before, c, c', after, returns⟩
      have held := inv.held_of_inuse below inuse unready
      refine ⟨out.erase i, inv.giveBack held returns, returns.isReady_iff, ?_⟩
      intro j other
      rw [returns.area, elem_release, Function.update_of_ne other]
    · have outside : ∀ c ∈ q.qptr, ¬c.InRange i := by
        intro c member inside
        have upper := (inv.ranges.bounds.2 c member).2.2
        exact below (lt_of_lt_of_le inside.2 upper)
      have same : (recycleOne q i).2 = q := by
        simp [recycleOne, inuse, recycleScan_of_outside q.counters outside]
      rw [same]
      exact ⟨out, inv, fun _ => Iff.rfl, fun _ _ => rfl⟩
  · have unused : (recycleOne q i).2 = { q with
        counters :=
          { q.counters with
            recycleInvalidIdxTimes := q.counters.recycleInvalidIdxTimes + 1 } } := by
      simp [recycleOne, inuse]
    rw [unused]
    exact ⟨out, inv.congr rfl rfl rfl, fun _ => Iff.rfl, fun _ _ => rfl⟩

theorem PoolInv.recycle_unready (inv : PoolInv q out) (unready : ∀ i ∈ idlist, ¬IsReady q i) :
    ∃ out', PoolInv (ipQueueRecycle idlist q).2 out' ∧
      ∀ j, IsReady q j → (ipQueueRecycle idlist q).2.m.elem j = q.m.elem j := by
  induction idlist generalizing q out with
  | nil => exact ⟨out, inv, fun _ _ => rfl⟩
  | cons i idlist ih =>
      have first := unready i List.mem_cons_self
      rcases inv.recycleOne_unready first with ⟨out', inv', ready, elem⟩
      have rest : ∀ j ∈ idlist, ¬IsReady (recycleOne q i).2 j := by
        intro j member
        rw [ready]
        exact unready j (List.mem_cons_of_mem i member)
      rcases ih inv' rest with ⟨last, lastInv, lastElem⟩
      refine ⟨last, lastInv, ?_⟩
      intro j queued
      have other : j ≠ i := by
        rintro rfl
        exact first queued
      exact (lastElem j ((ready j).mpr queued)).trans (elem j other)

theorem PoolInv.recycle_wrong (inv : PoolInv q out) (wrong : ∃ i ∈ idlist, IsReady q i) :
    ∃ i, IsReady q i ∧ IsIdle (ipQueueRecycle idlist q).2 i := by
  induction idlist generalizing q out with
  | nil => simp at wrong
  | cons i idlist ih =>
      by_cases first : IsReady q i
      · exact ⟨i, first, isIdle_ipQueueRecycle idlist (inv.idle_of_wrong first)⟩
      · rcases inv.recycleOne_unready first with ⟨out', inv', ready, -⟩
        have later : ∃ j ∈ idlist, IsReady (recycleOne q i).2 j := by
          rcases wrong with ⟨j, member, queued⟩
          rcases List.mem_cons.mp member with rfl | later
          · exact absurd queued first
          · exact ⟨j, later, (ready j).mpr queued⟩
        rcases ih inv' later with ⟨j, queued, idle⟩
        exact ⟨j, (ready j).mp queued, idle⟩

/-! ## Runs -/

theorem PoolInv.spared (inv : PoolInv q out) {event : PoolEvent} (spares : SparesReady q event) :
    ∃ out', PoolInv (poolStep q event) out' ∧
      ∀ j, IsReady q j → (poolStep q event).m.elem j = q.m.elem j := by
  cases event with
  | put cpu src => exact ⟨out, inv.put cpu src, fun _ ready => inv.elem_put cpu src ready⟩
  | move2dma => exact ⟨_, inv.move2dma, fun _ _ => rfl⟩
  | recycle idlist => exact inv.recycle_unready (spares idlist rfl)

theorem robust_iff (inv : PoolInv q out) (event : PoolEvent) :
    Robust q (poolStep q event) ↔ SparesReady q event := by
  constructor
  · rintro robust idlist rfl i member ready
    rcases inv.recycle_wrong ⟨i, member, ready⟩ with ⟨j, queued, idle⟩
    exact robust.queued j queued idle
  · intro spares
    rcases inv.spared spares with ⟨out', inv', same⟩
    exact robust_of_inv inv inv' same

/-- Whatever clients return, every step of a run is robust exactly when none of its recycles
names a ready index. -/
theorem robust_run_iff (created : Creates q) (events : List PoolEvent) :
    Meets poolStep (fun q event => Robust q (poolStep q event)) q events ↔
      Meets poolStep SparesReady q events := by
  have anything : Meets poolStep (fun _ _ => True) q events :=
    meets_of_mem (fun _ _ _ => trivial) q
  apply @meets_iff_of_invariant _ _ _ _ (fun q => ∃ out, PoolInv q out) (fun _ _ => True)
  · rintro q event ⟨out, inv⟩ -
    exact robust_iff inv event
  · rintro q event ⟨out, inv⟩ - spares
    rcases inv.spared spares with ⟨out', inv', -⟩
    exact ⟨out', inv'⟩
  · exact ⟨[], poolInv_of_creates created⟩
  · exact anything

end

/-- A client returns index 0 while it waits in the ready fifo. -/
def wrongRun : List PoolEvent :=
  [.put 0 infoEc, .recycle [0]]

theorem wrongRun_not_robust :
    ¬Meets poolStep (fun q event => Robust q (poolStep q event)) smallPool wrongRun := by
  rintro ⟨-, robust, -⟩
  exact robust.queued 0 (by decide) (by decide)

/-- The client holds 0 and 3. It returns 0 twice, the idle index 1, one that does not exist and
3, and later three indices that are idle again. -/
def strayRun : List PoolEvent :=
  [.put 0 infoEc, .put 1 infoEc, .move2dma, .recycle [0, 0, 1, 200, 3], .put 0 infoEc,
    .recycle [3, 2, 0]]

theorem strayRun_robust :
    Meets poolStep (fun q event => Robust q (poolStep q event)) smallPool strayRun := by
  apply (robust_run_iff creates_smallPool strayRun).mpr
  refine ⟨?_, ?_, ?_, ?_, ?_, ?_, trivial⟩
  all_goals
    intro idlist event
    cases event
  · decide
  · decide

end Linguafranca.Ipshark2
