import Linguafranca.Ipshark2.Pool

/-!
# The pool as a queue of records for each CPU

The purpose of the pool is to carry the records accepted on a CPU to the client, in order.
A ledger is kept next to the run: for each CPU the records of its accepted puts and the
number of its indices handed over so far, and for the client the deliveries it holds, each
with its number among those of its CPU. While a delivery is held, its element has the
accepted record of that number (`RecordsInv`).
-/

namespace Linguafranca.Ipshark2

open Run

/-- The `seq`-th index handed over from the CPU. -/
structure Delivery where
  cpu : ℕ
  seq : ℕ
  idx : ℕ

/-- The records that each CPU accepted, how many of them were delivered, and the deliveries that
user space holds. -/
structure Ledger where
  accepted : ℕ → List IpKeyInfo
  delivered : ℕ → ℕ
  held : List Delivery

/-- Nothing was accepted. -/
def Ledger.empty : Ledger :=
  ⟨fun _ => [], fun _ => 0, []⟩

/-- The CPU whose range contains the index. -/
def cpuOf (cpus : List QueueData) (i : ℕ) : ℕ :=
  cpus.findIdx fun c => c.InRange i

/-- One index is handed over; `home` gives the CPU of an index. -/
def Ledger.deliver (home : ℕ → ℕ) (ledger : Ledger) (i : ℕ) : Ledger :=
  { ledger with
    delivered := Function.update ledger.delivered (home i) (ledger.delivered (home i) + 1)
    held := ledger.held ++ [⟨home i, ledger.delivered (home i), i⟩] }

/-- A put is accepted when it obtains an idle index. -/
def acceptsPut (q : IpQueue) (cpu : ℕ) : Bool :=
  (q.qptr[cpu]?.bind fun c => (takeIdle q.m.elem c.idle).1).isSome

/-- The ledger after an event. -/
def ledgerStep (q : IpQueue) (event : PoolEvent) (ledger : Ledger) : Ledger :=
  match event with
  | .put cpu src =>
      if acceptsPut q cpu then
        { ledger with
          accepted := Function.update ledger.accepted cpu (ledger.accepted cpu ++ [src]) }
      else ledger
  | .move2dma => (ipQueueMove2dma q).m.delivered.foldl (Ledger.deliver (cpuOf q.qptr)) ledger
  | .recycle idlist => { ledger with held := ledger.held.filter fun d => d.idx ∉ idlist }

/-- The indices that user space holds. -/
def Ledger.outstanding (ledger : Ledger) : List ℕ :=
  ledger.held.map Delivery.idx

/-- The client returns indices of deliveries it holds, each once. -/
def ReturnsDelivered (both : IpQueue × Ledger) (event : PoolEvent) : Prop :=
  ReturnsHeld (both.1, both.2.outstanding) event

/-- The records at some indices. -/
def IpQueue.records (q : IpQueue) (indices : List ℕ) : List IpKeyInfo :=
  indices.map fun i => (q.m.elem i).info

theorem records_append (q : IpQueue) (first second : List ℕ) :
    q.records (first ++ second) = q.records first ++ q.records second :=
  List.map_append

theorem records_congr {q q' : IpQueue} {indices : List ℕ}
    (same : ∀ i ∈ indices, (q'.m.elem i).info = (q.m.elem i).info) :
    q'.records indices = q.records indices :=
  List.map_congr_left same

/-- The queued indices carry the accepted records that are not delivered yet, and the held ones
those that were. -/
structure RecordsInv (q : IpQueue) (ledger : Ledger) : Prop where
  pool : PoolInv q ledger.outstanding
  bounded : ∀ cpu, ledger.delivered cpu ≤ (ledger.accepted cpu).length
  queued : ∀ cpu c, q.qptr[cpu]? = some c →
    (ledger.accepted cpu).drop (ledger.delivered cpu) = q.records c.ready.items
  read : ∀ d ∈ ledger.held, (ledger.accepted d.cpu)[d.seq]? = some (q.m.elem d.idx).info

section Steps

variable {q q' : IpQueue} {ledger : Ledger} {before after : List QueueData} {c c' : QueueData}
  {i cpu : ℕ}

theorem getElem?_update (before after : List QueueData) (c c' : QueueData) (cpu : ℕ) :
    (before ++ c' :: after)[cpu]? =
      if cpu = before.length then some c' else (before ++ c :: after)[cpu]? := by
  rcases lt_trichotomy cpu before.length with lower | rfl | higher
  · rw [if_neg lower.ne, List.getElem?_append_left lower, List.getElem?_append_left lower]
  · simp
  · rw [if_neg higher.ne', List.getElem?_append_right higher.le,
      List.getElem?_append_right higher.le, List.getElem?_cons, List.getElem?_cons,
      if_neg (by omega), if_neg (by omega)]

theorem cpuOf_eq {lo hi : ℕ} (ranges : Consecutive lo (before ++ c :: after) hi)
    (inside : c.InRange i) : cpuOf (before ++ c :: after) i = before.length := by
  have outside : ∀ other ∈ before, ¬other.InRange i := by
    intro other member
    exact ranges.apart inside other (List.mem_append_left after member)
  clear ranges
  simp only [cpuOf]
  induction before with
  | nil => simp [List.findIdx_cons, inside]
  | cons first before ih =>
      have rest := ih fun other member => outside other (List.mem_cons_of_mem first member)
      simp [List.findIdx_cons, outside first List.mem_cons_self, rest]

/-! ### A put -/

theorem RecordsInv.congr (inv : RecordsInv q ledger) (queues : q'.qptr = q.qptr)
    (total : q'.m.ipKeyInfoTotalSize = q.m.ipKeyInfoTotalSize) (elem : q'.m.elem = q.m.elem) :
    RecordsInv q' ledger := by
  refine ⟨inv.pool.congr queues total elem, inv.bounded, ?_, ?_⟩
  · rw [queues]
    simp only [IpQueue.records, elem]
    exact inv.queued
  · rw [elem]
    exact inv.read

theorem acceptsPut_of_accepts {src : IpKeyInfo}
    (accepts : Accepts q q' cpu i src before c c' after) : acceptsPut q cpu = true := by
  have here : q.qptr[cpu]? = some c := by
    rw [accepts.queues, ← accepts.position]
    simp
  simp [acceptsPut, here, accepts.taken]

/-- The filled index was neither ready nor with the client. -/
theorem RecordsInv.info_of_accepts {src : IpKeyInfo} (inv : RecordsInv q ledger)
    (accepts : Accepts q q' cpu i src before c c' after) :
    (∀ j, j ≠ i → (q'.m.elem j).info = (q.m.elem j).info) ∧ (q'.m.elem i).info = src ∧
      (∀ other ∈ q.qptr, ∀ j ∈ other.ready.items, j ≠ i) ∧ ∀ d ∈ ledger.held, d.idx ≠ i := by
  have cpuInv := inv.pool.cpu accepts.queues
  have idle : i ∈ c.idle.items := by simp [accepts.idle]
  have ranges := inv.pool.ranges
  rw [accepts.queues] at ranges
  refine ⟨?_, ?_, ?_, ?_⟩
  · intro j other
    rw [accepts.area, elem_fill, Function.update_of_ne other]
  · rw [accepts.area, elem_fill, Function.update_self]
  · rintro other present j member rfl
    have home := (inv.pool.cpus other present).readyHome j member
    rw [accepts.queues, List.mem_append, List.mem_cons] at present
    rcases present with inBefore | rfl | inAfter
    · exact ranges.apart (cpuInv.idleHome j idle) other (List.mem_append_left after inBefore) home
    · exact cpuInv.not_ready_of_idle idle member
    · exact ranges.apart (cpuInv.idleHome j idle) other (List.mem_append_right before inAfter) home
  · rintro d member rfl
    exact cpuInv.not_held_of_idle idle (List.mem_map_of_mem member)

theorem RecordsInv.accept {src : IpKeyInfo} (inv : RecordsInv q ledger)
    (pool : PoolInv q' ledger.outstanding) (accepts : Accepts q q' cpu i src before c c' after) :
    RecordsInv q' { ledger with
      accepted := Function.update ledger.accepted cpu (ledger.accepted cpu ++ [src]) } := by
  rcases inv.info_of_accepts accepts with ⟨info, filled, notReady, notHeld⟩
  refine ⟨pool, ?_, ?_, ?_⟩
  · intro at_cpu
    have bound := inv.bounded at_cpu
    simp only [Function.update_apply]
    split
    · next here =>
        subst here
        rw [List.length_append]
        omega
    · exact bound
  · intro at_cpu other present
    rw [accepts.queues', getElem?_update before after c c', accepts.position] at present
    dsimp only
    by_cases here : at_cpu = cpu
    · subst here
      rw [if_pos rfl] at present
      obtain rfl := Option.some.inj present
      have old := inv.queued at_cpu c (by simp [accepts.queues, ← accepts.position])
      have kept : q'.records c.ready.items = q.records c.ready.items := by
        apply records_congr
        intro j member
        exact info j (notReady c (by simp [accepts.queues]) j member)
      rw [Function.update_self, List.drop_append_of_le_length (inv.bounded at_cpu), old,
        accepts.ready, records_append, kept]
      simp [IpQueue.records, filled]
    · rw [if_neg here, ← accepts.queues] at present
      have kept : q'.records other.ready.items = q.records other.ready.items := by
        apply records_congr
        intro j member
        exact info j (notReady other (List.mem_of_getElem? present) j member)
      rw [Function.update_of_ne here, inv.queued at_cpu other present, kept]
  · intro d member
    have old := inv.read d member
    dsimp only
    rw [info d.idx (notHeld d member), Function.update_apply]
    split
    · next here =>
        rw [← here, List.getElem?_append_left (List.getElem?_eq_some_iff.mp old).1]
        exact old
    · exact old

theorem RecordsInv.put (inv : RecordsInv q ledger) (cpu : ℕ) (src : IpKeyInfo) :
    RecordsInv (ipQueuePut cpu src q) (ledgerStep q (.put cpu src) ledger) := by
  rcases inv.pool.put_cases cpu src with
    ⟨queues, area, refused⟩ | ⟨i, before, c, c', after, accepts⟩
  · have unaccepted : acceptsPut q cpu = false := by
      cases present : q.qptr[cpu]? with
      | none => simp [acceptsPut, present]
      | some c => simp [acceptsPut, present, refused c present]
    simp only [ledgerStep, unaccepted, Bool.false_eq_true, if_false]
    exact inv.congr queues (by rw [area]) (by rw [area])
  · simp only [ledgerStep, acceptsPut_of_accepts accepts, if_true]
    exact inv.accept (inv.pool.put cpu src) accepts

/-! ### Handing over -/

theorem foldl_deliver {homeOf : ℕ → ℕ} {moved : List ℕ} {cpu : ℕ}
    (home : ∀ i ∈ moved, homeOf i = cpu) (ledger : Ledger) :
    moved.foldl (Ledger.deliver homeOf) ledger =
      { accepted := ledger.accepted
        delivered :=
          Function.update ledger.delivered cpu (ledger.delivered cpu + moved.length)
        held := ledger.held ++
          (moved.zipIdx (ledger.delivered cpu)).map fun pair => ⟨cpu, pair.2, pair.1⟩ } := by
  induction moved generalizing ledger with
  | nil => simp
  | cons i moved ih =>
      have first := home i List.mem_cons_self
      rw [List.foldl_cons, ih fun j member => home j (List.mem_cons_of_mem i member)]
      simp [Ledger.deliver, first, List.zipIdx_cons, Nat.add_comm 1, Nat.add_assoc]

theorem RecordsInv.handOver {homeOf : ℕ → ℕ} {moved : List ℕ} (inv : RecordsInv q ledger)
    (queues : q.qptr = before ++ c :: after) (same : SameShape c c') (idle : c'.idle = c.idle)
    (ready : c.ready.items = moved ++ c'.ready.items)
    (home : ∀ i ∈ moved, homeOf i = before.length) :
    RecordsInv { q with qptr := before ++ c' :: after }
      (moved.foldl (Ledger.deliver homeOf) ledger) := by
  have pool := inv.pool.handOver queues same idle ready
  have old := inv.queued before.length c (by simp [queues])
  rw [ready, records_append] at old
  rw [foldl_deliver home]
  refine ⟨?_, ?_, ?_, ?_⟩
  · have outstanding : (ledger.held ++ (moved.zipIdx (ledger.delivered before.length)).map
        fun pair => (⟨before.length, pair.2, pair.1⟩ : Delivery)).map Delivery.idx =
        ledger.outstanding ++ moved := by
      simp [Ledger.outstanding, Function.comp_def]
    simp only [Ledger.outstanding, outstanding]
    exact pool
  · intro at_cpu
    dsimp only
    rw [Function.update_apply]
    split
    · next here =>
        subst here
        have lengths := congrArg List.length old
        simp only [IpQueue.records, List.length_drop, List.length_append, List.length_map]
          at lengths
        have bound := inv.bounded before.length
        omega
    · exact inv.bounded at_cpu
  · intro at_cpu other present
    simp only [getElem?_update before after c c'] at present
    by_cases here : at_cpu = before.length
    · subst here
      rw [if_pos rfl] at present
      obtain rfl := Option.some.inj present
      dsimp only
      rw [Function.update_self, ← List.drop_drop, old, List.drop_left']
      · rfl
      · simp [IpQueue.records]
    · rw [if_neg here, ← queues] at present
      dsimp only
      rw [Function.update_of_ne here]
      exact inv.queued at_cpu other present
  · intro d member
    rcases List.mem_append.mp member with earlier | new
    · exact inv.read d earlier
    · rcases List.mem_map.mp new with ⟨⟨i, seq⟩, numbered, rfl⟩
      rcases List.mk_mem_zipIdx_iff_le_and_getElem?_sub.mp numbered with ⟨above, position⟩
      have entry := congrArg (fun records => records[seq - ledger.delivered before.length]?) old
      simp only [List.getElem?_drop, Nat.add_sub_cancel' above] at entry
      rw [entry, List.getElem?_append_left]
      · simp [IpQueue.records, position]
      · simpa [IpQueue.records] using (List.getElem?_eq_some_iff.mp position).1

theorem RecordsInv.drain {homeOf : ℕ → ℕ} {cpus cpus' : List QueueData} {moved : List ℕ}
    (before : List QueueData) (drains : Drains cpus moved cpus') (inv : RecordsInv q ledger)
    (queues : q.qptr = before ++ cpus) (queues' : q'.qptr = before ++ cpus')
    (total : q'.m.ipKeyInfoTotalSize = q.m.ipKeyInfoTotalSize) (elem : q'.m.elem = q.m.elem)
    (home : ∀ cpu c i, (before ++ cpus)[cpu]? = some c → c.InRange i → homeOf i = cpu) :
    RecordsInv q' (moved.foldl (Ledger.deliver homeOf) ledger) := by
  induction drains generalizing q ledger before with
  | nil => exact inv.congr (queues'.trans queues.symm) total elem
  | @cons c c' moved rest cpus cpus' same idle ready later ih =>
      have here : ∀ i ∈ moved, homeOf i = before.length := by
        intro i member
        apply home before.length c i (by simp)
        exact (inv.pool.cpu queues).readyHome i (by simp [ready, member])
      rw [List.foldl_append]
      apply ih (before ++ [c']) (inv.handOver queues same idle ready here)
      · simp
      · simp [queues']
      · exact total
      · exact elem
      · intro cpu other i present inside
        rw [List.append_assoc, List.singleton_append, getElem?_update before cpus c c'] at present
        split at present
        · next position =>
            obtain rfl := Option.some.inj present
            exact home cpu c i (by simp [position]) (same.inRange_iff.mp inside)
        · exact home cpu other i present inside

theorem RecordsInv.move2dma (inv : RecordsInv q ledger) :
    RecordsInv (ipQueueMove2dma q) (ledgerStep q .move2dma ledger) := by
  simp only [ledgerStep, delivered_ipQueueMove2dma]
  refine @RecordsInv.drain q (ipQueueMove2dma q) ledger _ _ _ _ []
    (move2dmaLoop_drains q.qptr 0 ipsIdxArraySize) inv rfl rfl rfl rfl ?_
  intro cpu c i present inside
  rw [List.nil_append] at present
  rcases split_of_getElem? present with ⟨before, after, queues, position, -⟩
  have ranges := inv.pool.ranges
  rw [queues] at ranges ⊢
  rw [← position]
  exact cpuOf_eq ranges inside

/-! ### Taking back -/

theorem PoolInv.frame_recycle {idlist out : List ℕ} (inv : PoolInv q out)
    (distinct : idlist.Nodup) (held : ∀ i ∈ idlist, i ∈ out) :
    ((ipQueueRecycle idlist q).2.qptr.map QueueData.ready) = q.qptr.map QueueData.ready ∧
      ∀ j, ((ipQueueRecycle idlist q).2.m.elem j).info = (q.m.elem j).info := by
  apply @PoolInv.recycle_induction q out (fun q _ _ last =>
    last.qptr.map QueueData.ready = q.qptr.map QueueData.ready ∧
      ∀ j, (last.m.elem j).info = (q.m.elem j).info) _ _ _ inv distinct held
  · intro q out _
    exact ⟨rfl, fun _ => rfl⟩
  · rintro q out i idlist last before c c' after _ returns ⟨ready, info⟩
    constructor
    · apply ready.trans
      simp [returns.queues, returns.queues', returns.ready]
    · intro j
      apply (info j).trans
      rw [returns.area, elem_release, Function.update_apply]
      split
      · next here => rw [here]
      · rfl

theorem RecordsInv.recycle {idlist : List ℕ} (inv : RecordsInv q ledger)
    (distinct : idlist.Nodup) (held : ∀ i ∈ idlist, i ∈ ledger.outstanding) :
    RecordsInv (ipQueueRecycle idlist q).2 (ledgerStep q (.recycle idlist) ledger) := by
  have pool := inv.pool.recycle distinct held
  rcases inv.pool.frame_recycle distinct held with ⟨ready, info⟩
  have outstanding : (ledgerStep q (.recycle idlist) ledger).outstanding =
      ledger.outstanding.diff idlist := by
    rw [inv.pool.nodup.sdiff_eq_filter]
    simp only [ledgerStep, Ledger.outstanding, List.filter_map]
    rfl
  refine ⟨?_, inv.bounded, ?_, ?_⟩
  · rwa [outstanding]
  · intro cpu c present
    have fifos := congrArg (fun queues => queues[cpu]?) ready
    simp only [List.getElem?_map, present, Option.map_some] at fifos
    rcases Option.map_eq_some_iff.mp fifos.symm with ⟨old, was, same⟩
    rw [← same, records_congr fun j _ => info j]
    exact inv.queued cpu old was
  · intro d member
    rw [info d.idx]
    exact inv.read d (List.mem_of_mem_filter member)

end Steps

/-! ## Runs -/

/-- The pool and the ledger after some events. -/
abbrev poolLedger (q : IpQueue) (events : List PoolEvent) : IpQueue × Ledger :=
  run (observe poolStep ledgerStep) (q, Ledger.empty) events

section Runs

variable {q : IpQueue} {events : List PoolEvent}

theorem recordsInv_step (both : IpQueue × Ledger) (event : PoolEvent)
    (inv : RecordsInv both.1 both.2) (returned : ReturnsDelivered both event) :
    RecordsInv (poolStep both.1 event) (ledgerStep both.1 event both.2) := by
  cases event with
  | put cpu src => exact inv.put cpu src
  | move2dma => exact inv.move2dma
  | recycle idlist =>
      rcases returned idlist rfl with ⟨distinct, held⟩
      exact inv.recycle distinct held

theorem recordsInv_run (created : Creates q)
    (returned : Meets (observe poolStep ledgerStep) ReturnsDelivered (q, Ledger.empty) events) :
    RecordsInv (poolLedger q events).1 (poolLedger q events).2 := by
  apply @invariant _ _ _ _ (fun both => RecordsInv both.1 both.2) recordsInv_step _ _ ?_ returned
  have pool := poolInv_of_creates created
  refine ⟨pool, fun _ => le_rfl, ?_, ?_⟩
  · intro cpu c present
    have fresh := (fresh_of_creates created).2.1 c (List.mem_of_getElem? present)
    simp [Ledger.empty, fresh.ready, IpQueue.records]
  · intro d member
    simp [Ledger.empty] at member

theorem accepted_foldl_deliver (homeOf : ℕ → ℕ) (moved : List ℕ) (ledger : Ledger) :
    (moved.foldl (Ledger.deliver homeOf) ledger).accepted = ledger.accepted := by
  induction moved generalizing ledger with
  | nil => rfl
  | cons i moved ih => exact ih (ledger.deliver homeOf i)

theorem accepted_prefix (both : IpQueue × Ledger) (events : List PoolEvent) (cpu : ℕ) :
    both.2.accepted cpu <+: (run (observe poolStep ledgerStep) both events).2.accepted cpu := by
  apply @invariant_of_step _ _ _
    fun later : IpQueue × Ledger => both.2.accepted cpu <+: later.2.accepted cpu
  · intro later event grown
    apply grown.trans
    cases event with
    | put at_cpu src =>
        simp only [observe, ledgerStep]
        split
        · dsimp only
          rw [Function.update_apply]
          split
          · next here =>
              rw [here]
              exact List.prefix_append _ _
          · exact List.prefix_rfl
        · exact List.prefix_rfl
    | move2dma =>
        simp only [observe, ledgerStep, accepted_foldl_deliver]
        exact List.prefix_rfl
    | recycle idlist => exact List.prefix_rfl
  · exact List.prefix_rfl

theorem mem_held_foldl_deliver {homeOf : ℕ → ℕ} {moved : List ℕ} {ledger : Ledger} {d : Delivery}
    (held : d ∈ ledger.held) : d ∈ (moved.foldl (Ledger.deliver homeOf) ledger).held := by
  induction moved generalizing ledger with
  | nil => exact held
  | cons i moved ih => exact ih (List.mem_append_left _ held)

theorem exists_held_of_foldl_deliver {homeOf : ℕ → ℕ} {moved : List ℕ} {ledger : Ledger}
    {cpu seq : ℕ} (new : ledger.delivered cpu ≤ seq)
    (counted : seq < (moved.foldl (Ledger.deliver homeOf) ledger).delivered cpu) :
    ∃ idx, ⟨cpu, seq, idx⟩ ∈ (moved.foldl (Ledger.deliver homeOf) ledger).held := by
  induction moved generalizing ledger with
  | nil => exact absurd counted (not_lt.mpr new)
  | cons i moved ih =>
      by_cases this : homeOf i = cpu ∧ ledger.delivered cpu = seq
      · rcases this with ⟨rfl, rfl⟩
        have entered : (⟨homeOf i, ledger.delivered (homeOf i), i⟩ : Delivery) ∈
            (ledger.deliver homeOf i).held :=
          List.mem_append_right ledger.held (List.mem_singleton_self _)
        refine ⟨i, ?_⟩
        rw [List.foldl_cons]
        exact mem_held_foldl_deliver entered
      · apply ih ?_ counted
        simp only [Ledger.deliver, Function.update_apply]
        split
        · next here =>
            rw [← here]
            have differ : ledger.delivered cpu ≠ seq := fun same => this ⟨here.symm, same⟩
            subst here
            omega
        · exact new

/-- Each delivery that was counted was held at some moment. -/
theorem exists_moment {cpu seq : ℕ} (counted : seq < (poolLedger q events).2.delivered cpu) :
    ∃ moment idx, ⟨cpu, seq, idx⟩ ∈ (poolLedger q (events.take moment)).2.held := by
  induction events using List.reverseRecOn with
  | nil => simp [poolLedger, Ledger.empty] at counted
  | append_singleton events event ih =>
      by_cases earlier : seq < (poolLedger q events).2.delivered cpu
      · rcases ih earlier with ⟨moment, idx, held⟩
        refine ⟨min moment events.length, idx, ?_⟩
        rw [List.take_append_of_le_length (min_le_right _ _)]
        rcases le_total moment events.length with inside | beyond
        · rwa [min_eq_left inside]
        · rw [min_eq_right beyond, List.take_length]
          rwa [List.take_of_length_le beyond] at held
      · refine ⟨(events ++ [event]).length, ?_⟩
        rw [List.take_length]
        simp only [poolLedger, run_append, run_cons, run_nil] at counted ⊢
        cases event with
        | put at_cpu src =>
            have kept : (ledgerStep (poolLedger q events).1 (.put at_cpu src)
                (poolLedger q events).2).delivered = (poolLedger q events).2.delivered := by
              simp only [ledgerStep]
              split <;> rfl
            exact absurd (kept ▸ counted) earlier
        | recycle idlist => exact absurd counted earlier
        | move2dma => exact exists_held_of_foldl_deliver (not_lt.mp earlier) counted

/-- The record in a held delivery stays the accepted one whatever follows. -/
theorem read_eq_accepted (created : Creates q)
    (returned : Meets (observe poolStep ledgerStep) ReturnsDelivered (q, Ledger.empty) events)
    {moment : ℕ} {d : Delivery} (held : d ∈ (poolLedger q (events.take moment)).2.held) :
    ((poolLedger q events).2.accepted d.cpu)[d.seq]? =
      some ((poolLedger q (events.take moment)).1.m.elem d.idx).info := by
  have earlier : Meets (observe poolStep ledgerStep) ReturnsDelivered (q, Ledger.empty)
      (events.take moment) := by
    rw [← List.take_append_drop moment events, meets_append] at returned
    exact returned.1
  have read := (recordsInv_run created earlier).read d held
  have grown : (poolLedger q (events.take moment)).2.accepted d.cpu <+:
      (poolLedger q events).2.accepted d.cpu := by
    have later := accepted_prefix (poolLedger q (events.take moment)) (events.drop moment) d.cpu
    rwa [← run_append, List.take_append_drop] at later
  have inside := (List.getElem?_eq_some_iff.mp read).1
  rw [← read, List.getElem?_eq_getElem inside]
  exact List.prefix_iff_getElem?.mp grown d.seq inside

/-- What the client reads at the indices handed over from a CPU, each one read at some
moment between its delivery and its recycle. -/
def ReadsWhileHeld (q : IpQueue) (events : List PoolEvent) (cpu : ℕ) (reads : List IpKeyInfo) :
    Prop :=
  reads.length = (poolLedger q events).2.delivered cpu ∧
    ∀ seq info, reads[seq]? = some info → ∃ moment idx,
      ⟨cpu, seq, idx⟩ ∈ (poolLedger q (events.take moment)).2.held ∧
        info = ((poolLedger q (events.take moment)).1.m.elem idx).info

/-- The client reads the accepted records in order; those not yet handed over are ready. -/
theorem reads_prefix_of_accepted (created : Creates q)
    (returned : Meets (observe poolStep ledgerStep) ReturnsDelivered (q, Ledger.empty) events)
    {cpu : ℕ} {c : QueueData} (present : (poolLedger q events).1.qptr[cpu]? = some c) :
    (∃ reads, ReadsWhileHeld q events cpu reads) ∧
      ∀ reads, ReadsWhileHeld q events cpu reads →
        (poolLedger q events).2.accepted cpu =
          reads ++ (poolLedger q events).1.records c.ready.items := by
  have inv := recordsInv_run created returned
  have bound := inv.bounded cpu
  constructor
  · refine ⟨((poolLedger q events).2.accepted cpu).take ((poolLedger q events).2.delivered cpu),
      List.length_take_of_le bound, ?_⟩
    intro seq info found
    have counted : seq < (poolLedger q events).2.delivered cpu := by
      have inside := (List.getElem?_eq_some_iff.mp found).1
      rwa [List.length_take_of_le bound] at inside
    rw [List.getElem?_take_of_lt counted] at found
    rcases exists_moment counted with ⟨moment, idx, held⟩
    refine ⟨moment, idx, held, ?_⟩
    have read := read_eq_accepted created returned held
    exact Option.some.inj (found.symm.trans read)
  · rintro reads ⟨length, each⟩
    have taken : reads =
        ((poolLedger q events).2.accepted cpu).take ((poolLedger q events).2.delivered cpu) := by
      apply List.ext_getElem?
      intro seq
      by_cases inside : seq < reads.length
      · rcases each seq _ (List.getElem?_eq_getElem inside) with ⟨moment, idx, held, same⟩
        have read := read_eq_accepted created returned held
        rw [List.getElem?_eq_getElem inside, List.getElem?_take_of_lt (by omega), read, same]
      · rw [List.getElem?_eq_none (not_lt.mp inside), List.getElem?_eq_none]
        rw [List.length_take_of_le bound]
        omega
    rw [← inv.queued cpu c present, taken, List.take_append_drop]

end Runs

theorem returnsDelivered_smallRun :
    Meets (observe poolStep ledgerStep) ReturnsDelivered (smallPool, Ledger.empty) smallRun := by
  refine ⟨?_, ?_, ?_, ?_, ?_, ?_, trivial⟩
  all_goals
    intro idlist event
    cases event
  decide

theorem reads_prefix_of_accepted_for_smallRun :
    ∃ reads, ReadsWhileHeld smallPool smallRun 1 reads ∧
      (poolLedger smallPool smallRun).2.accepted 1 =
        reads ++ (poolLedger smallPool smallRun).1.records [4, 3] := by
  have present : (poolLedger smallPool smallRun).1.qptr[1]? =
      some ((poolLedger smallPool smallRun).1.qptr.get ⟨1, by decide⟩) := rfl
  rcases reads_prefix_of_accepted creates_smallPool returnsDelivered_smallRun present with
    ⟨⟨reads, held⟩, each⟩
  exact ⟨reads, held, each reads held⟩

end Linguafranca.Ipshark2
