import Linguafranca.Ipshark2.Partition

/-!
# The pool over whole runs

`PoolInv` holds after a successful `ip_queue_create` and every put, every
`ip_queue_move2dma` and every recycle of indices the client holds keeps it. From it follow
the facts the code relies on without checking: the ready fifo takes every filled index, no
index in use is popped from an idle fifo, and a returned index lands in one idle fifo.
-/

namespace Linguafranca.Ipshark2

open Run

/-- The ranges cover the elements, and every index is in one place. -/
structure PoolInv (q : IpQueue) (out : List ℕ) : Prop where
  ranges : Consecutive 0 q.qptr q.m.ipKeyInfoTotalSize
  cpus : ∀ c ∈ q.qptr, CpuInv q.m.elem out c
  held : ∀ i ∈ out, i < q.m.ipKeyInfoTotalSize ∧ (q.m.elem i).state = .inuse

section Update

variable {q q' : IpQueue} {out out' : List ℕ} {c c' : QueueData} {before after : List QueueData}

theorem mem_of_mem_around {other : QueueData} (member : other ∈ before ++ after) :
    other ∈ before ++ c :: after :=
  ((List.sublist_cons_self c after).append_left before).subset member

/-- A change at one CPU that touches no index outside its range. -/
theorem PoolInv.update (inv : PoolInv q out) (queues : q.qptr = before ++ c :: after)
    (queues' : q'.qptr = before ++ c' :: after)
    (total : q'.m.ipKeyInfoTotalSize = q.m.ipKeyInfoTotalSize) (same : SameShape c c')
    (cpu : CpuInv q'.m.elem out' c')
    (elsewhere : ∀ i, ¬c.InRange i →
      (q'.m.elem i).state = (q.m.elem i).state ∧ out'.count i = out.count i)
    (held : ∀ i ∈ out', i < q.m.ipKeyInfoTotalSize ∧ (q'.m.elem i).state = .inuse) :
    PoolInv q' out' := by
  have ranges := inv.ranges
  rw [queues] at ranges
  refine ⟨?_, ?_, ?_⟩
  · rw [queues', total]
    exact ranges.update same.start same.endIdx
  · intro other member
    rw [queues', List.mem_append, List.mem_cons] at member
    have transfer : other ∈ before ++ after → CpuInv q'.m.elem out' other := by
      intro around
      have old : other ∈ q.qptr := by
        rw [queues]
        exact mem_of_mem_around around
      have outside : ∀ i, other.InRange i → ¬c.InRange i := by
        intro i inside here
        exact ranges.apart here other around inside
      apply (inv.cpus other old).frame
      · intro i inside
        exact (elsewhere i (outside i inside)).1
      · intro i inside
        exact (elsewhere i (outside i inside)).2
    rcases member with inBefore | rfl | inAfter
    · exact transfer (List.mem_append_left after inBefore)
    · exact cpu
    · exact transfer (List.mem_append_right before inAfter)
  · rw [total]
    exact held

theorem PoolInv.congr (inv : PoolInv q out) (queues : q'.qptr = q.qptr)
    (total : q'.m.ipKeyInfoTotalSize = q.m.ipKeyInfoTotalSize) (elem : q'.m.elem = q.m.elem) :
    PoolInv q' out := by
  refine ⟨?_, ?_, ?_⟩
  · rw [queues, total]
    exact inv.ranges
  · rw [queues, elem]
    exact inv.cpus
  · rw [total, elem]
    exact inv.held

theorem PoolInv.cpu (inv : PoolInv q out) (queues : q.qptr = before ++ c :: after) :
    CpuInv q.m.elem out c := by
  apply inv.cpus
  simp [queues]

theorem PoolInv.nodup (inv : PoolInv q out) : out.Nodup := by
  rw [List.nodup_iff_count_le_one]
  intro i
  by_cases member : i ∈ out
  · rcases inv.ranges.covers (Nat.zero_le i) (inv.held i member).1 with
      ⟨before, c, after, queues, inside⟩
    have once := (inv.cpu queues).once i inside
    omega
  · rw [List.count_eq_zero_of_not_mem member]
    exact Nat.zero_le 1

end Update

/-- The CPU at a position of the list, and the list with another CPU there. -/
theorem split_of_getElem? {cpus : List QueueData} {cpu : ℕ} {c : QueueData}
    (present : cpus[cpu]? = some c) :
    ∃ before after, cpus = before ++ c :: after ∧ before.length = cpu ∧
      ∀ c', cpus.set cpu c' = before ++ c' :: after := by
  rcases List.getElem?_eq_some_iff.mp present with ⟨inside, rfl⟩
  refine ⟨cpus.take cpu, cpus.drop (cpu + 1), ?_, ?_, ?_⟩
  · simp
  · simp only [List.length_take]
    omega
  · intro c'
    rw [List.set_eq_take_append_cons_drop, if_pos inside]

theorem mem_of_getElem?_ne {before after : List QueueData} {c other : QueueData} {cpu : ℕ}
    (present : (before ++ c :: after)[cpu]? = some other) (elsewhere : cpu ≠ before.length) :
    other ∈ before ++ after := by
  rcases lt_or_gt_of_ne elsewhere with lower | higher
  · rw [List.getElem?_append_left lower] at present
    exact List.mem_append_left after (List.mem_of_getElem? present)
  · rw [List.getElem?_append_right higher.le, List.getElem?_cons, if_neg (by omega)] at present
    exact List.mem_append_right before (List.mem_of_getElem? present)

/-! ## Putting -/

section Put

variable {elem : ℕ → IpKeyInfoWrap} {out : List ℕ} {c : QueueData}

/-- The loop takes the first idle index, which is never in use. -/
theorem CpuInv.takeIdle_cases (inv : CpuInv elem out c) :
    (takeIdle elem c.idle = (none, 0, c.idle)) ∨
      ∃ i left, takeIdle elem c.idle = (some i, 0, left) ∧ c.idle.items = i :: left.items ∧
        left.size = c.idle.size := by
  simp only [takeIdle, getIdle]
  cases taken : c.idle.get with
  | none => exact Or.inl rfl
  | some pair =>
      rcases pair with ⟨i, left⟩
      rcases Kfifo.get_eq_some taken with ⟨items, size⟩
      have free : (elem i).state ≠ .inuse := inv.idleFree i (by simp [items])
      right
      exact ⟨i, left, by simp [free], items, size⟩

@[simp]
theorem updateAlarm_fields (c : QueueData) :
    c.updateAlarm.start = c.start ∧ c.updateAlarm.endIdx = c.endIdx ∧
      c.updateAlarm.idle = c.idle ∧ c.updateAlarm.ready = c.ready := by
  simp only [QueueData.updateAlarm]
  split
  · split <;> exact ⟨rfl, rfl, rfl, rfl⟩
  · split <;> exact ⟨rfl, rfl, rfl, rfl⟩

theorem CpuInv.room_of_idle (inv : CpuInv elem out c) {i : ℕ} {left : List ℕ}
    (items : c.idle.items = i :: left) : c.ready.items.length < c.ready.size := by
  have idle : i ∈ c.idle.items := by simp [items]
  apply inv.ready_room (inv.idleHome i idle)
  exact inv.not_ready_of_idle idle

theorem CpuInv.putReady (inv : CpuInv elem out c) {i : ℕ} {left : Kfifo ℕ}
    (items : c.idle.items = i :: left.items) :
    (QueueData.putReady { c with idle := left } i).1 = true ∧
      (QueueData.putReady { c with idle := left } i).2 =
        { c with idle := left, ready := (c.ready.put i).2 } ∧
      (c.ready.put i).2.items = c.ready.items ++ [i] := by
  rcases Kfifo.put_of_room i (inv.room_of_idle items) with ⟨accepted, queued⟩
  simp [QueueData.putReady, accepted, queued]

/-- One CPU takes an idle index, fills the record and queues the index. -/
structure Accepts (q q' : IpQueue) (cpu i : ℕ) (src : IpKeyInfo) (before : List QueueData)
    (c c' : QueueData) (after : List QueueData) : Prop where
  queues : q.qptr = before ++ c :: after
  position : before.length = cpu
  queues' : q'.qptr = before ++ c' :: after
  area : q'.m = q.m.fill i src
  same : SameShape c c'
  taken : (takeIdle q.m.elem c.idle).1 = some i
  idle : c.idle.items = i :: c'.idle.items
  ready : c'.ready.items = c.ready.items ++ [i]

variable {q : IpQueue}

theorem PoolInv.put_cases (inv : PoolInv q out) (cpu : ℕ) (src : IpKeyInfo) :
    ((ipQueuePut cpu src q).qptr = q.qptr ∧ (ipQueuePut cpu src q).m = q.m ∧
        ∀ c, q.qptr[cpu]? = some c → (takeIdle q.m.elem c.idle).1 = none) ∨
      ∃ i before c c' after, Accepts q (ipQueuePut cpu src q) cpu i src before c c' after := by
  cases present : q.qptr[cpu]? with
  | none =>
      left
      simp [ipQueuePut, present]
  | some c =>
      rcases split_of_getElem? present with ⟨before, after, queues, position, set⟩
      have cpuInv := inv.cpu queues
      rcases cpuInv.takeIdle_cases with empty | ⟨i, left, taken, items, size⟩
      · left
        simp only [ipQueuePut, present, empty]
        refine ⟨?_, trivial, ?_⟩
        · rw [set c, queues]
        · rintro other ⟨⟩
          rw [empty]
      · right
        rcases cpuInv.putReady items with ⟨accepted, changed, queued⟩
        rcases updateAlarm_fields { c with idle := left, ready := (c.ready.put i).2 } with
          ⟨start, endIdx, idle, ready⟩
        refine ⟨i, before, c,
          QueueData.updateAlarm { c with idle := left, ready := (c.ready.put i).2 }, after, queues,
          position, ?_, ?_, ?_, ?_, ?_, ?_⟩
        · simp only [ipQueuePut, present, taken, changed]
          exact set _
        · simp [ipQueuePut, present, taken]
        · constructor
          · rw [start]
          · rw [endIdx]
          · rw [idle]
            exact size
          · rw [ready]
            exact Kfifo.size_put c.ready i
        · rw [taken]
        · rw [idle]
          exact items
        · rw [ready]
          exact queued

theorem PoolInv.put (inv : PoolInv q out) (cpu : ℕ) (src : IpKeyInfo) :
    PoolInv (ipQueuePut cpu src q) out := by
  rcases inv.put_cases cpu src with ⟨queues, area, -⟩ | ⟨i, before, c, c', after, accepts⟩
  · exact inv.congr queues (by rw [area]) (by rw [area])
  · have cpuInv := inv.cpu accepts.queues
    have home := cpuInv.idleHome i (by simp [accepts.idle])
    apply inv.update accepts.queues accepts.queues' ?_ accepts.same
    · rw [accepts.area]
      exact cpuInv.accept accepts.same accepts.idle accepts.ready rfl
    · intro j outside
      refine ⟨?_, rfl⟩
      have other : j ≠ i := by
        rintro rfl
        exact outside home
      rw [accepts.area, elem_fill, Function.update_of_ne other]
    · intro j member
      refine ⟨(inv.held j member).1, ?_⟩
      by_cases here : j = i
      · subst here
        rw [accepts.area, elem_fill, Function.update_self]
      · rw [accepts.area, elem_fill, Function.update_of_ne here]
        exact (inv.held j member).2
    · rw [accepts.area, total_fill]

end Put

/-! ## Handing over -/

section Move

/-- Each CPU hands over some of its oldest ready indices. -/
inductive Drains : List QueueData → List ℕ → List QueueData → Prop
  | nil : Drains [] [] []
  | cons {c c' : QueueData} {moved rest : List ℕ} {cpus cpus' : List QueueData}
      (same : SameShape c c') (idle : c'.idle = c.idle)
      (ready : c.ready.items = moved ++ c'.ready.items) (later : Drains cpus rest cpus') :
      Drains (c :: cpus) (moved ++ rest) (c' :: cpus')

theorem SameShape.refl (c : QueueData) : SameShape c c :=
  ⟨rfl, rfl, rfl, rfl⟩

theorem Drains.skip (c : QueueData) {cpus cpus' : List QueueData} {rest : List ℕ}
    (later : Drains cpus rest cpus') : Drains (c :: cpus) rest (c :: cpus') :=
  @Drains.cons c c [] rest cpus cpus' (SameShape.refl c) rfl rfl later

theorem Drains.none (cpus : List QueueData) : Drains cpus [] cpus := by
  induction cpus with
  | nil => exact .nil
  | cons c cpus ih => exact .skip c ih

theorem move2dmaLoop_drains (cpus : List QueueData) (copied : ℕ) (num : Int) :
    Drains cpus (move2dmaLoop cpus copied num).1 (move2dmaLoop cpus copied num).2 := by
  induction cpus generalizing copied num with
  | nil => exact .nil
  | cons c cpus ih =>
      rw [move2dmaLoop]
      split
      · exact .skip c (ih copied num)
      · have same : SameShape c { c with ready := (c.ready.out num.toNat).2 } :=
          ⟨rfl, rfl, rfl, rfl⟩
        have ready := (c.ready.out_append num.toNat).symm
        simp only
        split
        · have last := Drains.cons same rfl ready (Drains.none cpus)
          rwa [List.append_nil] at last
        · exact .cons same rfl ready (ih _ _)

@[simp]
theorem delivered_ipQueueMove2dma (q : IpQueue) :
    (ipQueueMove2dma q).m.delivered = (move2dmaLoop q.qptr 0 ipsIdxArraySize).1 := by
  simp [ipQueueMove2dma, IpsDmaArea.delivered]

variable {q q' : IpQueue} {out moved : List ℕ} {cpus cpus' : List QueueData}

theorem PoolInv.handOver {before after : List QueueData} {c c' : QueueData} (inv : PoolInv q out)
    (queues : q.qptr = before ++ c :: after) (same : SameShape c c') (idle : c'.idle = c.idle)
    (ready : c.ready.items = moved ++ c'.ready.items) :
    PoolInv { q with qptr := before ++ c' :: after } (out ++ moved) := by
  have cpuInv := inv.cpu queues
  refine @PoolInv.update q { q with qptr := before ++ c' :: after } out (out ++ moved) c c'
    before after inv queues rfl rfl same (cpuInv.deliver same (by rw [idle]) ready) ?_ ?_
  · intro i outside
    refine ⟨rfl, ?_⟩
    rw [List.count_append, Nat.add_eq_left, List.count_eq_zero]
    intro member
    exact outside (cpuInv.readyHome i (by simp [ready, member]))
  · intro i member
    rcases List.mem_append.mp member with old | new
    · exact inv.held i old
    · have inReady : i ∈ c.ready.items := by simp [ready, new]
      rcases cpuInv.readyHome i inReady with ⟨-, upper⟩
      have bound := (inv.ranges.bounds.2 c (by simp [queues])).2.2
      exact ⟨by omega, cpuInv.readyInuse i inReady⟩

theorem PoolInv.drain (before : List QueueData) (drains : Drains cpus moved cpus')
    (inv : PoolInv q out) (queues : q.qptr = before ++ cpus) (queues' : q'.qptr = before ++ cpus')
    (total : q'.m.ipKeyInfoTotalSize = q.m.ipKeyInfoTotalSize) (elem : q'.m.elem = q.m.elem) :
    PoolInv q' (out ++ moved) := by
  induction drains generalizing q out before with
  | nil =>
      rw [List.append_nil]
      exact inv.congr (queues'.trans queues.symm) total elem
  | @cons c c' moved rest cpus cpus' same idle ready later ih =>
      rw [← List.append_assoc]
      apply ih (before ++ [c']) (inv.handOver queues same idle ready)
      · simp
      · simp [queues']
      · exact total
      · exact elem

theorem PoolInv.move2dma (inv : PoolInv q out) :
    PoolInv (ipQueueMove2dma q) (out ++ (ipQueueMove2dma q).m.delivered) := by
  rw [delivered_ipQueueMove2dma]
  exact inv.drain [] (move2dmaLoop_drains q.qptr 0 ipsIdxArraySize) rfl rfl rfl rfl

end Move

/-! ## Taking back -/

section Recycle

variable {q q' : IpQueue} {out : List ℕ} {i : ℕ}

theorem recycleScan_of_outside {cpus : List QueueData} (counters : Counters)
    (outside : ∀ c ∈ cpus, ¬c.InRange i) :
    recycleScan cpus i counters = (false, counters, cpus) := by
  induction cpus with
  | nil => rfl
  | cons c cpus ih =>
      have rest := ih fun other member => outside other (List.mem_cons_of_mem c member)
      simp [recycleScan, outside c List.mem_cons_self, rest]

/-- What the scan does at one CPU. -/
inductive Scanned (c : QueueData) : QueueData → Prop where
  | passed : Scanned c c
  | took (i : ℕ) : c.InRange i → Scanned c { c with idle := (c.idle.put i).2 }

theorem scanned_recycleScan (cpus : List QueueData) (i : ℕ) (counters : Counters) :
    List.Forall₂ Scanned cpus (recycleScan cpus i counters).2.2 := by
  induction cpus generalizing i counters with
  | nil => exact .nil
  | cons c cpus ih =>
      rw [recycleScan]
      split
      · next inside => exact .cons (.took i inside) (ih _ _)
      · exact .cons .passed (ih _ _)

/-- The scan finds the one CPU of the index. The zero left behind is in no later range. -/
theorem recycleScan_of_inside {lo hi : ℕ} {before after : List QueueData} {c : QueueData}
    (counters : Counters) (ranges : Consecutive lo (before ++ c :: after) hi)
    (inside : c.InRange i) (room : (c.idle.put i).1 = true) :
    recycleScan (before ++ c :: after) i counters =
      (true, { counters with recycleTimes := counters.recycleTimes + 1 },
        before ++ { c with idle := (c.idle.put i).2 } :: after) := by
  induction before generalizing lo with
  | nil =>
      have zero : ∀ other ∈ after, ¬other.InRange 0 := by
        rintro other member ⟨lower, -⟩
        have above := (ranges.around inside).2 other member
        omega
      simp [recycleScan, inside, room, recycleScan_of_outside _ zero]
  | cons first before ih =>
      have outside := ranges.apart inside first List.mem_cons_self
      simp [recycleScan, outside, ih ranges.2.2]

/-- An index goes back to the idle fifo of its CPU. -/
structure Returns (q q' : IpQueue) (i : ℕ) (before : List QueueData) (c c' : QueueData)
    (after : List QueueData) : Prop where
  queues : q.qptr = before ++ c :: after
  queues' : q'.qptr = before ++ c' :: after
  area : q'.m = q.m.release i
  same : SameShape c c'
  inside : c.InRange i
  idle : c'.idle.items = c.idle.items ++ [i]
  ready : c'.ready = c.ready
  putfail : q'.counters.putfail = q.counters.putfail

/-- An index in use that is given back finds room in the idle fifo of its CPU. -/
theorem PoolInv.returns_of_inuse (inv : PoolInv q out) (below : i < q.m.ipKeyInfoTotalSize)
    (inuse : (q.m.elem i).state = .inuse) :
    ∃ before c c' after, Returns q (recycleOne q i).2 i before c c' after := by
  rcases inv.ranges.covers (Nat.zero_le i) below with ⟨before, c, after, queues, inside⟩
  have cpuInv := inv.cpu queues
  have absent : i ∉ c.idle.items := by
    intro member
    exact cpuInv.idleFree i member inuse
  rcases Kfifo.put_of_room i (cpuInv.idle_room inside absent) with ⟨accepted, queued⟩
  have ranges := inv.ranges
  rw [queues] at ranges
  have scanned := recycleScan_of_inside q.counters ranges inside accepted
  refine ⟨before, c, { c with idle := (c.idle.put i).2 }, after, queues, ?_, ?_, ?_, inside,
    queued, rfl, ?_⟩
  · simp [recycleOne, inuse, queues, scanned]
  · simp [recycleOne, inuse, queues, scanned]
  · exact ⟨rfl, rfl, Kfifo.size_put c.idle i, rfl⟩
  · simp [recycleOne, inuse, queues, scanned]

theorem PoolInv.returns (inv : PoolInv q out) (held : i ∈ out) :
    ∃ before c c' after, Returns q (recycleOne q i).2 i before c c' after := by
  rcases inv.held i held with ⟨below, inuse⟩
  exact inv.returns_of_inuse below inuse

theorem PoolInv.giveBack {before after : List QueueData} {c c' : QueueData} (inv : PoolInv q out)
    (held : i ∈ out) (returns : Returns q q' i before c c' after) :
    PoolInv q' (out.erase i) := by
  have cpuInv := inv.cpu returns.queues
  apply inv.update returns.queues returns.queues' ?_ returns.same
  · rw [returns.area]
    apply cpuInv.giveBack returns.same returns.inside held returns.idle (by rw [returns.ready])
    simp
  · intro j outside
    have other : j ≠ i := by
      rintro rfl
      exact outside returns.inside
    rw [returns.area, elem_release, Function.update_of_ne other, List.count_erase_of_ne other]
    exact ⟨rfl, rfl⟩
  · intro j member
    rcases inv.nodup.mem_erase_iff.mp member with ⟨other, stillHeld⟩
    have old := inv.held j stillHeld
    rw [returns.area, elem_release, Function.update_of_ne other]
    exact old
  · rw [returns.area, total_release]

theorem held_erase {idlist : List ℕ} (fresh : i ∉ idlist) (held : ∀ j ∈ i :: idlist, j ∈ out) :
    ∀ j ∈ idlist, j ∈ out.erase i := by
  intro j member
  have other : j ≠ i := by
    rintro rfl
    exact fresh member
  exact (List.mem_erase_of_ne other).mpr (held j (List.mem_cons_of_mem i member))

/-- What holds of a recycle of held indices: each in turn goes back to its CPU. -/
theorem PoolInv.recycle_induction {motive : IpQueue → List ℕ → List ℕ → IpQueue → Prop}
    (nil : ∀ q out, PoolInv q out → motive q out [] q)
    (cons : ∀ q out i idlist last before c c' after, PoolInv q out →
      Returns q (recycleOne q i).2 i before c c' after →
      motive (recycleOne q i).2 (out.erase i) idlist last → motive q out (i :: idlist) last)
    {idlist : List ℕ} (inv : PoolInv q out) (distinct : idlist.Nodup)
    (held : ∀ i ∈ idlist, i ∈ out) : motive q out idlist (ipQueueRecycle idlist q).2 := by
  induction idlist generalizing q out with
  | nil => exact nil q out inv
  | cons i idlist ih =>
      rcases List.nodup_cons.mp distinct with ⟨fresh, rest⟩
      have first := held i List.mem_cons_self
      rcases inv.returns first with ⟨before, c, c', after, returns⟩
      apply cons q out i idlist _ before c c' after inv returns
      exact ih (inv.giveBack first returns) rest (held_erase fresh held)

theorem PoolInv.recycle {idlist : List ℕ} (inv : PoolInv q out) (distinct : idlist.Nodup)
    (held : ∀ i ∈ idlist, i ∈ out) :
    PoolInv (ipQueueRecycle idlist q).2 (out.diff idlist) := by
  apply @PoolInv.recycle_induction q out
    (fun _ out idlist last => PoolInv last (out.diff idlist)) _ _ _ inv distinct held
  · intro q out inv
    exact inv
  · intro q out i idlist last before c c' after _ _ later
    rwa [List.diff_cons]

/-- Each idle fifo gets the returned indices of its range, in order, and refuses none. -/
theorem PoolInv.idle_recycle {idlist : List ℕ} (inv : PoolInv q out) (distinct : idlist.Nodup)
    (held : ∀ i ∈ idlist, i ∈ out) :
    ((ipQueueRecycle idlist q).2.qptr.map fun c => c.idle.items) =
        (q.qptr.map fun c => c.idle.items ++ idlist.filter fun i => c.InRange i) ∧
      (ipQueueRecycle idlist q).2.counters.putfail = q.counters.putfail := by
  apply @PoolInv.recycle_induction q out (fun q _ idlist last =>
    (last.qptr.map fun c => c.idle.items) =
        (q.qptr.map fun c => c.idle.items ++ idlist.filter fun i => c.InRange i) ∧
      last.counters.putfail = q.counters.putfail) _ _ _ inv distinct held
  · intro q out _
    simp
  · rintro q out i idlist last before c c' after inv returns ⟨fifos, putfail⟩
    have ranges := inv.ranges
    rw [returns.queues] at ranges
    have apart := ranges.apart returns.inside
    have sameRange : ∀ j, c'.InRange j ↔ c.InRange j := fun j => returns.same.inRange_iff
    refine ⟨?_, putfail.trans returns.putfail⟩
    apply fifos.trans
    rw [returns.queues, returns.queues']
    simp only [List.map_append, List.map_cons, returns.idle, sameRange, List.append_assoc,
      List.singleton_append]
    congr 1
    · apply List.map_congr_left
      intro other member
      rw [List.filter_cons_of_neg]
      simpa using apart other (List.mem_append_left after member)
    · congr 1
      · rw [List.filter_cons_of_pos]
        simpa using returns.inside
      · apply List.map_congr_left
        intro other member
        rw [List.filter_cons_of_neg]
        simpa using apart other (List.mem_append_right before member)

end Recycle

/-! ## Creating -/

section Create

theorem fillIdle_of_room {idle : Kfifo ℕ} {indices : List ℕ}
    (room : idle.items.length + indices.length ≤ idle.size) :
    (fillIdle idle indices).1 = true ∧
      (fillIdle idle indices).2.items = idle.items ++ indices ∧
      (fillIdle idle indices).2.size = idle.size := by
  induction indices generalizing idle with
  | nil => simp [fillIdle]
  | cons i indices ih =>
      simp only [List.length_cons] at room
      have some_room : idle.items.length < idle.size := by omega
      rcases Kfifo.put_of_room i some_room with ⟨accepted, queued⟩
      have next : (idle.put i).2.items.length + indices.length ≤ (idle.put i).2.size := by
        simp only [queued, Kfifo.size_put, List.length_append, List.length_singleton]
        omega
      rcases ih next with ⟨filled, items, size⟩
      simp [fillIdle, accepted, filled, items, size, queued]

/-- A CPU as it is set up: all of its indices are idle. -/
structure Fresh (c : QueueData) : Prop where
  idle : c.idle.items = List.range' c.start (c.endIdx - c.start)
  ready : c.ready.items = []
  idleSize : c.endIdx - c.start ≤ c.idle.size
  readySize : c.endIdx - c.start ≤ c.ready.size

/-- The three allocations of a CPU succeed. -/
def CpuAlloc.Allocated (alloc : CpuAlloc) : Prop :=
  alloc.dataptr = true ∧ alloc.ready.isSome ∧ alloc.idle.isSome

instance (alloc : CpuAlloc) : Decidable alloc.Allocated :=
  inferInstanceAs (Decidable (_ ∧ _ ∧ _))

/-- What the loop does for its first CPU. -/
inductive CreateTurn (s : List IpsCpuQueueSize) (defaultSize : UInt16) (cpu pre : ℕ) (ret : Int)
    (alloc : CpuAlloc) (rest : List CpuAlloc) : Int × ℕ × List QueueData → Prop where
  | refused (next : ℕ) (err : Int) : ¬alloc.Allocated → err < 0 →
      CreateTurn s defaultSize cpu pre ret alloc rest (err, next, [])
  | wraps (next : ℕ) (err : Int) : 65536 ≤ pre + (getsize cpu s defaultSize).toNat → err < 0 →
      CreateTurn s defaultSize cpu pre ret alloc rest (err, next, [])
  | sets (c : QueueData) (later : Int × ℕ × List QueueData) : alloc.Allocated →
      pre + (getsize cpu s defaultSize).toNat < 65536 → Fresh c → c.start = pre →
      c.endIdx = pre + (getsize cpu s defaultSize).toNat →
      later = createLoop s defaultSize (cpu + 1) (pre + (getsize cpu s defaultSize).toNat) ret
        rest →
      CreateTurn s defaultSize cpu pre ret alloc rest (later.1, later.2.1, c :: later.2.2)

theorem createLoop_turn (s : List IpsCpuQueueSize) (defaultSize : UInt16) (cpu pre : ℕ) (ret : Int)
    (alloc : CpuAlloc) (rest : List CpuAlloc) (small : pre < 65536) :
    CreateTurn s defaultSize cpu pre ret alloc rest
      (createLoop s defaultSize cpu pre ret (alloc :: rest)) := by
  have sizeSmall := (getsize cpu s defaultSize).toNat_lt
  rcases alloc with ⟨dataptr, ready, idle⟩
  rw [createLoop]
  cases dataptr with
  | false => exact .refused _ _ (by simp [CpuAlloc.Allocated]) (by simp [enomem])
  | true =>
      simp only [Bool.not_true, Bool.false_eq_true, if_false]
      split
      · exact .wraps _ _ (by omega) (by simp [einval])
      · next noWrap =>
          -- Without a wrap the new end is the sum.
          have sum : (pre + (getsize cpu s defaultSize).toNat) % 65536 =
              pre + (getsize cpu s defaultSize).toNat := by
            omega
          cases ready with
          | none => exact .refused _ _ (by simp [CpuAlloc.Allocated]) (by simp [enomem])
          | some addedReady =>
              cases idle with
              | none => exact .refused _ _ (by simp [CpuAlloc.Allocated]) (by simp [enomem])
              | some addedIdle =>
                  have room : (Kfifo.alloc ((getsize cpu s defaultSize).toNat + addedIdle) :
                      Kfifo ℕ).items.length + (List.range' pre
                        (pre + (getsize cpu s defaultSize).toNat - pre)).length ≤
                      (Kfifo.alloc ((getsize cpu s defaultSize).toNat + addedIdle) :
                        Kfifo ℕ).size := by
                    simp
                  rcases fillIdle_of_room room with ⟨filled, items, size⟩
                  simp only [sum, filled, if_true]
                  refine .sets _ _ ⟨rfl, rfl, rfl⟩ (by omega) ?_ rfl rfl rfl
                  refine ⟨by simpa using items, rfl, ?_, by simp⟩
                  simp only [size, Kfifo.size_alloc]
                  omega

theorem createLoop_spec {s : List IpsCpuQueueSize} {defaultSize : UInt16} {cpu pre : ℕ} {ret : Int}
    {cpus : List CpuAlloc} (small : pre < 65536)
    (created : (createLoop s defaultSize cpu pre ret cpus).1 = 0) :
    Consecutive pre (createLoop s defaultSize cpu pre ret cpus).2.2
        (createLoop s defaultSize cpu pre ret cpus).2.1 ∧
      ∀ c ∈ (createLoop s defaultSize cpu pre ret cpus).2.2, Fresh c := by
  induction cpus generalizing cpu pre ret with
  | nil => simp [createLoop, Consecutive]
  | cons alloc cpus ih =>
      have turn := createLoop_turn s defaultSize cpu pre ret alloc cpus small
      generalize createLoop s defaultSize cpu pre ret (alloc :: cpus) = result at created turn ⊢
      cases turn with
      | refused next err refused negative => exact absurd created negative.ne
      | wraps next err large negative => exact absurd created negative.ne
      | sets c later allocated below fresh starts ends continued =>
          subst continued
          rcases ih below created with ⟨consecutive, others⟩
          refine ⟨⟨starts, by omega, ?_⟩, List.forall_mem_cons.mpr ⟨fresh, others⟩⟩
          rw [ends]
          exact consecutive

/-- The pool is the one a call of `ip_queue_create` sets up. -/
def Creates (q : IpQueue) : Prop :=
  ∃ s defaultSize ms percpu cpus vmalloc behind counters,
    (ipQueueCreate s defaultSize ms percpu cpus vmalloc behind counters).2 = some q

theorem fresh_of_creates {q : IpQueue} (created : Creates q) :
    Consecutive 0 q.qptr q.m.ipKeyInfoTotalSize ∧ (∀ c ∈ q.qptr, Fresh c) ∧
      ∀ i < q.m.ipKeyInfoTotalSize, (q.m.elem i).state = .free := by
  rcases created with ⟨s, defaultSize, ms, percpu, cpus, vmalloc, behind, counters, created⟩
  unfold ipQueueCreate at created
  split at created
  · simp at created
  · simp only at created
    split at created
    · simp at created
    · next noError =>
        split at created
        · simp at created
        · obtain rfl := Option.some.inj created
          have none : (createLoop s defaultSize 0 0 0 cpus).1 = 0 := not_not.mp noError
          rcases createLoop_spec (by omega) none with ⟨consecutive, fresh⟩
          refine ⟨consecutive, fresh, ?_⟩
          intro i below
          simp [newElem, below]

theorem poolInv_of_creates {q : IpQueue} (created : Creates q) : PoolInv q [] := by
  rcases fresh_of_creates created with ⟨consecutive, fresh, free⟩
  refine ⟨consecutive, ?_, by simp⟩
  intro c member
  rcases fresh c member with ⟨idle, ready, idleSize, readySize⟩
  rcases consecutive.bounds.2 c member with ⟨-, ordered, bound⟩
  have inRange : ∀ i ∈ c.idle.items, c.InRange i := by
    intro i inside
    rw [idle, List.mem_range'_1] at inside
    exact ⟨inside.1, by omega⟩
  refine ⟨?_, inRange, by simp [ready], ?_, by simp [ready], idleSize, readySize⟩
  · rintro i ⟨lower, upper⟩
    have member : i ∈ List.range' c.start (c.endIdx - c.start) := by
      rw [List.mem_range'_1]
      omega
    simp [idle, ready, List.count_eq_one_of_mem List.nodup_range' member]
  · intro i inside
    have upper := (inRange i inside).2
    rw [free i (by omega)]
    decide

end Create

/-! ## Runs -/

/-- What the rest of the module does with a pool. -/
inductive PoolEvent where
  | put (cpu : ℕ) (src : IpKeyInfo)
  | move2dma
  | recycle (idlist : List ℕ)

/-- The pool after an event. -/
def poolStep (q : IpQueue) : PoolEvent → IpQueue
  | .put cpu src => ipQueuePut cpu src q
  | .move2dma => ipQueueMove2dma q
  | .recycle idlist => (ipQueueRecycle idlist q).2

/-- The indices the client was handed and has not returned. -/
def outstandingStep (q : IpQueue) (event : PoolEvent) (out : List ℕ) : List ℕ :=
  match event with
  | .put _ _ => out
  | .move2dma => out ++ (ipQueueMove2dma q).m.delivered
  | .recycle idlist => out.diff idlist

/-- The client returns indices it holds, each once. -/
def ReturnsHeld (both : IpQueue × List ℕ) (event : PoolEvent) : Prop :=
  ∀ idlist, event = .recycle idlist → idlist.Nodup ∧ ∀ i ∈ idlist, i ∈ both.2

theorem poolInv_step (both : IpQueue × List ℕ) (event : PoolEvent) (inv : PoolInv both.1 both.2)
    (returnsHeld : ReturnsHeld both event) :
    PoolInv (poolStep both.1 event) (outstandingStep both.1 event both.2) := by
  cases event with
  | put cpu src => exact inv.put cpu src
  | move2dma => exact inv.move2dma
  | recycle idlist =>
      rcases returnsHeld idlist rfl with ⟨distinct, held⟩
      exact inv.recycle distinct held

/-- Every index is in one place, once: the idle or the ready fifo of the CPU of its range or
the client; those that are ready or with the client are in use, and idle ones are not. -/
structure Partitioned (q : IpQueue) (out : List ℕ) : Prop where
  once : ∀ i < q.m.ipKeyInfoTotalSize,
    (q.qptr.map fun c => c.idle.items.count i + c.ready.items.count i).sum + out.count i = 1
  home : ∀ c ∈ q.qptr, ∀ i, i ∈ c.idle.items ∨ i ∈ c.ready.items → c.InRange i
  oneRange : ∀ i < q.m.ipKeyInfoTotalSize, ∃! cpu : ℕ, ∃ c : QueueData,
    q.qptr[cpu]? = some c ∧ c.InRange i
  inside : ∀ i, (i ∈ out ∨ ∃ c ∈ q.qptr, c.InRange i) → i < q.m.ipKeyInfoTotalSize
  idleFree : ∀ c ∈ q.qptr, ∀ i ∈ c.idle.items, (q.m.elem i).state ≠ .inuse
  readyInuse : ∀ c ∈ q.qptr, ∀ i ∈ c.ready.items, (q.m.elem i).state = .inuse
  heldInuse : ∀ i ∈ out, (q.m.elem i).state = .inuse

theorem PoolInv.partitioned {q : IpQueue} {out : List ℕ} (inv : PoolInv q out) :
    Partitioned q out where
  once := by
    intro i below
    rcases inv.ranges.covers (Nat.zero_le i) below with ⟨before, c, after, queues, inside⟩
    have ranges := inv.ranges
    rw [queues] at ranges
    have none : ∀ other ∈ before ++ after,
        other.idle.items.count i + other.ready.items.count i = 0 := by
      intro other member
      have outside := ranges.apart inside other member
      have old : other ∈ q.qptr := by
        rw [queues]
        exact mem_of_mem_around member
      have cpuInv := inv.cpus other old
      rw [Nat.add_eq_zero_iff, List.count_eq_zero, List.count_eq_zero]
      exact ⟨fun idle => outside (cpuInv.idleHome i idle),
        fun ready => outside (cpuInv.readyHome i ready)⟩
    have sumBefore :
        (before.map fun c => c.idle.items.count i + c.ready.items.count i).sum = 0 := by
      rw [List.sum_eq_zero_iff_forall_eq_nat]
      simpa using fun other member => none other (List.mem_append_left after member)
    have sumAfter :
        (after.map fun c => c.idle.items.count i + c.ready.items.count i).sum = 0 := by
      rw [List.sum_eq_zero_iff_forall_eq_nat]
      simpa using fun other member => none other (List.mem_append_right before member)
    have once := (inv.cpu queues).once i inside
    rw [queues, List.map_append, List.map_cons, List.sum_append, List.sum_cons, sumBefore, sumAfter]
    omega
  home := by
    rintro c member i (idle | ready)
    · exact (inv.cpus c member).idleHome i idle
    · exact (inv.cpus c member).readyHome i ready
  oneRange := by
    intro i below
    rcases inv.ranges.covers (Nat.zero_le i) below with ⟨before, c, after, queues, inside⟩
    have ranges := inv.ranges
    rw [queues] at ranges ⊢
    refine ⟨before.length, ⟨c, by simp, inside⟩, ?_⟩
    rintro cpu ⟨other, present, within⟩
    by_contra elsewhere
    exact ranges.apart inside other (mem_of_getElem?_ne present elsewhere) within
  inside := by
    rintro i (held | ⟨c, member, inside⟩)
    · exact (inv.held i held).1
    · exact lt_of_lt_of_le inside.2 (inv.ranges.bounds.2 c member).2.2
  idleFree := fun c member => (inv.cpus c member).idleFree
  readyInuse := fun c member => (inv.cpus c member).readyInuse
  heldInuse := fun i held => (inv.held i held).2

/-- What the operations rely on without checking it. -/
structure Reliable (q : IpQueue) (out : List ℕ) : Prop where
  readyAccepts : ∀ c ∈ q.qptr, ∀ i, (takeIdle q.m.elem c.idle).1 = some i →
    (c.ready.put i).1 = true
  noneInuse : ∀ c ∈ q.qptr, (takeIdle q.m.elem c.idle).2.1 = 0
  oneIdle : ∀ idlist : List ℕ, idlist.Nodup → (∀ i ∈ idlist, i ∈ out) →
    ((ipQueueRecycle idlist q).2.qptr.map fun c => c.idle.items) =
        (q.qptr.map fun c => c.idle.items ++ idlist.filter fun i => c.InRange i) ∧
      (ipQueueRecycle idlist q).2.counters.putfail = q.counters.putfail

theorem PoolInv.reliable {q : IpQueue} {out : List ℕ} (inv : PoolInv q out) : Reliable q out where
  readyAccepts := by
    intro c member i taken
    have cpuInv := inv.cpus c member
    rcases cpuInv.takeIdle_cases with empty | ⟨first, left, some, items, -⟩
    · simp [empty] at taken
    · rw [some] at taken
      obtain rfl := Option.some.inj taken
      exact (Kfifo.put_of_room first (cpuInv.room_of_idle items)).1
  noneInuse := by
    intro c member
    rcases (inv.cpus c member).takeIdle_cases with empty | ⟨first, left, some, -, -⟩
    · rw [empty]
    · rw [some]
  oneIdle := fun _ distinct held => inv.idle_recycle distinct held

/-- In every state that a created pool reaches while user space gives back what it holds, each index
is in one place, and the queues have room for what may come back. -/
theorem ipQueue_partitioned {q : IpQueue} (created : Creates q) (events : List PoolEvent)
    (returnsHeld : Meets (observe poolStep outstandingStep) ReturnsHeld (q, []) events) :
    Partitioned (run (observe poolStep outstandingStep) (q, []) events).1
        (run (observe poolStep outstandingStep) (q, []) events).2 ∧
      Reliable (run (observe poolStep outstandingStep) (q, []) events).1
        (run (observe poolStep outstandingStep) (q, []) events).2 := by
  have inv : PoolInv (run (observe poolStep outstandingStep) (q, []) events).1
      (run (observe poolStep outstandingStep) (q, []) events).2 := by
    apply @invariant _ _ _ _ (fun both => PoolInv both.1 both.2) poolInv_step _ _ ?_ returnsHeld
    exact poolInv_of_creates created
  exact ⟨inv.partitioned, inv.reliable⟩

/-- Two CPUs with three and two indices. -/
def smallCreate : Int × Option IpQueue :=
  ipQueueCreate [⟨1, 2⟩] 3 50 true [⟨true, some 1, some 1⟩, ⟨true, some 0, some 0⟩] true
    (fun _ => ⟨infoEc, 0, .free⟩) ⟨0, 0, 0, 0, 0, 0, 0⟩

/-- A pool of two CPUs. -/
def smallPool : IpQueue :=
  smallCreate.2.get (by decide)

theorem creates_smallPool : Creates smallPool :=
  ⟨_, _, _, _, _, _, _, _, (Option.some_get _).symm⟩

/-- Two puts are delivered, an index comes back, and there are two more puts. -/
def smallRun : List PoolEvent :=
  [.put 0 infoEc, .put 1 infoEc, .move2dma, .recycle [3], .put 1 infoEc, .put 1 infoEc]

theorem returnsHeld_smallRun :
    Meets (observe poolStep outstandingStep) ReturnsHeld (smallPool, []) smallRun := by
  refine ⟨?_, ?_, ?_, ?_, ?_, ?_, trivial⟩
  all_goals
    intro idlist event
    cases event
  decide

theorem ipQueue_partitioned_for_smallRun :
    Partitioned (run (observe poolStep outstandingStep) (smallPool, []) smallRun).1 [0] :=
  (ipQueue_partitioned creates_smallPool smallRun returnsHeld_smallRun).1

end Linguafranca.Ipshark2
