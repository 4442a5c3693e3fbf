import Linguafranca.Ipshark2.AreaInvariant

/-!
# How the indices change hands

Each step of a put or of the client moves at most one index or one batch from one place to
another, with the fifos: a put takes an index out of the idle fifo and leaves it in the ready
one, a fetch empties ready fifos into the hand of the client, and a recycle fills idle ones.
-/

namespace Linguafranca.Ipshark2

open Run Interleaving

section Step

variable {s : Areas} {t u cpu i : ℕ} {a a' : SharedArea} {pc pc' : AreaPc} {c : QueueData}

theorem shape_of_took (took : AreaTook a pc a' pc') : a'.pool.shape = a.pool.shape := by
  cases took with
  | pops cpu src c s left present taken =>
      exact shape_set present ⟨rfl, rfl, (Kfifo.get_eq_some taken).2, rfl⟩
  | queues cpu src s c present =>
      exact shape_set present ⟨rfl, rfl, rfl, Kfifo.size_put c.ready s⟩
  | putsBack cpu s c present => exact shape_set present ⟨rfl, rfl, Kfifo.size_put c.idle s, rfl⟩
  | alarms cpu c present =>
      rcases updateAlarm_fields c with ⟨start, endIdx, idle, ready⟩
      exact shape_set present ⟨start, endIdx, by rw [idle], by rw [ready]⟩
  | moves hand cpu copied num c present => exact shape_set present ⟨rfl, rfl, rfl, rfl⟩
  | gives hand addr handled cpu left c present =>
      exact shape_set present ⟨rfl, rfl, Kfifo.size_put c.idle _, rfl⟩
  | _ => rfl

theorem total_of_took (took : AreaTook a pc a' pc') :
    a'.pool.m.ipKeyInfoTotalSize = a.pool.m.ipKeyInfoTotalSize := by
  cases took <;> rfl

/-- A thread writes no other element than its own. -/
theorem elem_of_took (took : AreaTook a pc a' pc') (relies : pc.Relies a.pool)
    (untouched : i ∉ pc.touches) : a'.pool.m.elem i = a.pool.m.elem i := by
  cases took with
  | writes cpu src s wrap writes =>
      apply Function.update_of_ne
      intro same
      apply untouched
      rw [same]
      cases writes <;> exact List.mem_cons_self
  | releases hand addr handled cpu left =>
      apply Function.update_of_ne
      intro same
      apply untouched
      rcases relies.2 with ⟨rfl, _, _⟩
      rw [same]
      exact List.mem_append_right hand List.mem_cons_self
  | _ => rfl

theorem array_of_took (took : AreaTook a pc a' pc') (other : ¬pc.IsClient) :
    a'.pool.m.idxArray = a.pool.m.idxArray := by
  cases took with
  | moves => exact absurd trivial other
  | _ => rfl

theorem isClient_of_took (took : AreaTook a pc a' pc') : pc'.IsClient ↔ pc.IsClient := by
  cases took with
  | writes cpu src s wrap writes => cases writes <;> exact Iff.rfl
  | _ => exact Iff.rfl

theorem AreaInv.claims_step (inv : AreaInv s) (took : AreaTook s.shared (s.pc t) a' pc') :
    Claims a'.putting (fun u => ((s.move t a' pc').pc u).cpu) := by
  rw [read_move s t a' pc' AreaPc.cpu]
  have keep : pc'.cpu = (s.pc t).cpu → a'.putting = s.shared.putting →
      Claims a'.putting (Function.update (fun u => (s.pc u).cpu) t pc'.cpu) := by
    intro cpu putting
    rw [cpu, putting]
    have same := Function.update_eq_self t fun u => (s.pc u).cpu
    rw [same]
    exact inv.claims
  generalize here : s.pc t = pc at took keep
  cases took with
  | enters cpu src free => exact inv.claims.claim free
  | leaves cpu =>
      apply inv.claims.release
      show (s.pc t).cpu = some cpu
      rw [here]
      rfl
  | writes cpu src i wrap writes =>
      apply keep ?_ rfl
      cases writes <;> rfl
  | _ => exact keep rfl rfl

/-! ### Custody -/

theorem keeps_move_of_ne (other : t ≠ 0) : ((s.move t a' pc').pc 0).keeps = (s.pc 0).keeps := by
  rw [pc_move_of_ne (Ne.symm other)]

theorem AreaInv.ne_zero (inv : AreaInv s) (other : ¬(s.pc t).IsClient) : t ≠ 0 :=
  fun zero => other ((inv.one t).mpr zero)

/-- A put that neither takes nor queues an index. -/
theorem AreaInv.custody_same (inv : AreaInv s) (other : ¬(s.pc t).IsClient)
    (placed : a'.pool.places.Perm s.shared.pool.places) (owns : pc'.owns = (s.pc t).owns) :
    Custody {i | i < s.shared.pool.m.ipKeyInfoTotalSize}
      (a'.pool.places ++ ((s.move t a' pc').pc 0).keeps)
      (fun u => ((s.move t a' pc').pc u).owns) (fun _ => none) := by
  rw [read_move_of_eq s t a' pc' AreaPc.owns owns, keeps_move_of_ne (inv.ne_zero other)]
  exact inv.custody.reorder (placed.append_right _)

/-- The client moves indices between the fifos, its request and its hand. -/
theorem AreaInv.custody_client (inv : AreaInv s) (client : (s.pc t).IsClient)
    (client' : pc'.IsClient)
    (placed : (a'.pool.places ++ pc'.keeps).Perm (s.shared.pool.places ++ (s.pc t).keeps)) :
    Custody {i | i < s.shared.pool.m.ipKeyInfoTotalSize}
      (a'.pool.places ++ ((s.move t a' pc').pc 0).keeps)
      (fun u => ((s.move t a' pc').pc u).owns) (fun _ => none) := by
  have owns : pc'.owns = (s.pc t).owns := by rw [owns_of_client client, owns_of_client client']
  have zero := (inv.one t).mp client
  subst zero
  rw [read_move_of_eq s 0 a' pc' AreaPc.owns owns, pc_move_self]
  exact inv.custody.reorder placed

theorem items_put_of_room {fifo : Kfifo ℕ} (accepted : (fifo.put i).1 = true) :
    (fifo.put i).2.items = fifo.items ++ [i] := by
  by_cases room : fifo.items.length < fifo.size
  · exact (Kfifo.put_of_room i room).2
  · exact absurd accepted (by simp [Kfifo.put, room])

/-- The fifos of a CPU have room for an index of its range that is in neither. -/
theorem AreaInv.room (inv : AreaInv s) (present : s.shared.pool.qptr[cpu]? = some c)
    (inside : c.InRange i) (off : i ∉ s.shared.pool.places) :
    (c.idle.put i).1 = true ∧ (c.ready.put i).1 = true := by
  have queue := inv.queues c (List.mem_of_getElem? present)
  rcases exists_places present with ⟨rest, placed, -⟩
  have distinct := placed.nodup_iff.mp (List.nodup_append.mp inv.custody.nodup).1
  have items := List.nodup_append.mp (List.nodup_append.mp distinct).1
  rw [placed.mem_iff, List.mem_append, List.mem_append, not_or, not_or] at off
  have short : ∀ list : List ℕ, list.Nodup → (∀ j ∈ list, c.InRange j) → i ∉ list →
      list.length < c.endIdx - c.start := by
    intro list once home absent
    apply length_lt_of_count home ?_ inside absent
    exact fun j _ => List.nodup_iff_count_le_one.mp once j
  constructor
  · apply (Kfifo.put_of_room i (lt_of_lt_of_le ?_ queue.idleSize)).1
    exact short _ items.1 (fun j member => queue.home j (List.mem_append_left _ member)) off.1.1
  · apply (Kfifo.put_of_room i (lt_of_lt_of_le ?_ queue.readySize)).1
    exact short _ items.2.1 (fun j member => queue.home j (List.mem_append_right _ member)) off.1.2

/-- The index that is given back goes to the idle fifo of its CPU. -/
theorem AreaInv.gives_room (inv : AreaInv s) {hand left : List ℕ} {addr : ℕ} {handled : Bool}
    (here : s.pc t = .client hand (.giving addr handled cpu left))
    (present : s.shared.pool.qptr[cpu]? = some c) :
    handled = false ∧ c.InRange addr ∧ (c.idle.put addr).2.items = c.idle.items ++ [addr] := by
  have relies := inv.relies t
  rw [here] at relies
  rcases relies.2 with ⟨rfl, ⟨c', present', inside⟩, _⟩
  rw [present, Option.some.injEq] at present'
  subst present'
  have kept : addr ∈ (s.pc t).keeps := by
    rw [here]
    exact List.mem_append_right hand List.mem_cons_self
  exact ⟨rfl, inside, items_put_of_room (inv.room present inside (inv.off_of_keeps kept).1).1⟩

theorem AreaInv.custody_looks (inv : AreaInv s) {hand : List ℕ} {task task' : ClientTask}
    (here : s.pc t = .client hand task) (looks : Looks s.shared.pool task task') :
    task'.keeps = task.keeps := by
  have relies := inv.relies t
  rw [here] at relies
  cases looks with
  | ignores addr left free => exact absurd (relies.2 addr List.mem_cons_self) free
  | scanned addr handled cpu left past =>
      cases handled with
      | true => rfl
      | false =>
          have kept : addr ∈ (s.pc t).touches := by
            rw [here]
            exact List.mem_append_right hand List.mem_cons_self
          rcases exists_home inv.ranges (inv.lt_of_touches kept) with ⟨k, home⟩
          have below := lt_length_of_home home
          exact absurd home (relies.2.2.1 k (below.trans_le (List.getElem?_eq_none_iff.mp past)))
  | _ => rfl

section Places

variable {left : Kfifo ℕ} (present : a.pool.qptr[cpu]? = some c)

include present

theorem places_pop (taken : c.idle.get = some (i, left)) :
    a.pool.places.Perm (i :: (a.setQueue cpu { c with idle := left }).pool.places) := by
  rcases exists_places present with ⟨rest, placed, replaced⟩
  rw [(Kfifo.get_eq_some taken).1] at placed
  exact placed.trans ((replaced { c with idle := left }).cons i).symm

theorem places_putReady (room : (c.ready.put i).1 = true) :
    (a.setQueue cpu { c with ready := (c.ready.put i).2 }).pool.places.Perm
      (i :: a.pool.places) := by
  rcases exists_places present with ⟨rest, placed, replaced⟩
  apply (replaced { c with ready := (c.ready.put i).2 }).trans
  apply List.Perm.trans ?_ (placed.cons i).symm
  rw [List.perm_iff_count]
  intro j
  simp only [items_put_of_room room, List.count_append, List.count_cons, List.count_nil]
  omega

theorem places_outReady (num : ℕ) :
    ((c.ready.out num).1 ++
      (a.setQueue cpu { c with ready := (c.ready.out num).2 }).pool.places).Perm
        a.pool.places := by
  rcases exists_places present with ⟨rest, placed, replaced⟩
  apply ((replaced { c with ready := (c.ready.out num).2 }).append_left _).trans
  apply List.Perm.trans ?_ placed.symm
  rw [← c.ready.out_append num, List.perm_iff_count]
  intro j
  simp only [List.count_append]
  omega

theorem places_putIdle (items : (c.idle.put i).2.items = c.idle.items ++ [i]) :
    (a.setQueue cpu { c with idle := (c.idle.put i).2 }).pool.places.Perm
      (i :: a.pool.places) := by
  rcases exists_places present with ⟨rest, placed, replaced⟩
  apply (replaced { c with idle := (c.idle.put i).2 }).trans
  apply List.Perm.trans ?_ (placed.cons i).symm
  rw [List.perm_iff_count]
  intro j
  simp only [items, List.count_append, List.count_cons, List.count_nil]
  omega

theorem places_alarm : (a.setQueue cpu c.updateAlarm).pool.places.Perm a.pool.places := by
  rcases exists_places present with ⟨rest, placed, replaced⟩
  rcases updateAlarm_fields c with ⟨-, -, idle, ready⟩
  have alarmed := replaced c.updateAlarm
  rw [idle, ready] at alarmed
  exact alarmed.trans placed.symm

end Places

theorem AreaInv.custody_step (inv : AreaInv s)
    (honest : ∀ hand hand' idlist, s.pc t = .client hand .user →
      pc' = .client hand' (.taking idlist) → idlist.Nodup ∧ ∀ i ∈ idlist, i ∈ hand)
    (took : AreaTook s.shared (s.pc t) a' pc') :
    Custody {i | i < s.shared.pool.m.ipKeyInfoTotalSize}
      (a'.pool.places ++ ((s.move t a' pc').pc 0).keeps)
      (fun u => ((s.move t a' pc').pc u).owns) (fun _ => none) := by
  have relies := inv.relies t
  generalize here : s.pc t = pc at took relies
  have owns : (s.pc t).owns = pc.owns := congrArg AreaPc.owns here
  have keeps : (s.pc t).keeps = pc.keeps := congrArg AreaPc.keeps here
  have put : ¬pc.IsClient → ¬(s.pc t).IsClient := by
    rw [here]
    exact id
  have client : pc.IsClient → (s.pc t).IsClient := by
    rw [here]
    exact id
  cases took with
  | pops cpu src c i left present taken =>
      rw [read_move s t _ _ AreaPc.owns, keeps_move_of_ne (inv.ne_zero (put id))]
      exact inv.custody.withdraw owns ((places_pop present taken).append_right _) fun _ => by simp
  | queues cpu src i c present room =>
      rw [read_move s t _ _ AreaPc.owns, keeps_move_of_ne (inv.ne_zero (put id))]
      exact inv.custody.publish owns ((places_putReady present room).append_right _)
  | retries cpu src i busy => exact absurd busy relies.2
  | putsBack => exact absurd relies id
  | alarms cpu c present =>
      exact inv.custody_same (put id) (places_alarm present) owns.symm
  | writes cpu src i wrap writes =>
      refine inv.custody_same ?_ (List.Perm.refl _) ?_
      · rw [here]
        cases writes <;> exact id
      · rw [here]
        cases writes <;> rfl
  | looks hand looks =>
      refine inv.custody_client (client trivial) trivial ?_
      rw [keeps, AreaPc.keeps, AreaPc.keeps, inv.custody_looks here looks]
  | moves hand cpu copied num c present fits onward =>
      refine inv.custody_client (client trivial) trivial ?_
      have kept : AreaPc.keeps (.client hand ‹ClientTask›) =
          hand ++ (copied ++ (c.ready.out num.toNat).1) := by
        cases onward <;> rfl
      have placed := places_outReady present num.toNat
      rw [keeps, kept]
      change (IpQueue.places (SharedArea.setQueue _ _ _).pool ++ _).Perm _
      rw [List.perm_iff_count] at placed ⊢
      intro j
      have moved := placed j
      simp only [AreaPc.keeps, ClientTask.keeps, List.count_append] at moved ⊢
      omega
  | publishes hand copied =>
      refine inv.custody_client (client trivial) trivial ?_
      have written : s.shared.pool.m.idxArray.take copied.length = copied := relies.2.2
      have delivered : (s.shared.setIdxNum copied.length).pool.m.delivered = copied := written
      rw [keeps, delivered]
      simp only [AreaPc.keeps, ClientTask.keeps, List.append_nil]
      exact List.Perm.refl _
  | frees hand idlist =>
      refine inv.custody_client (client trivial) trivial ?_
      rcases honest hand _ idlist here rfl with ⟨distinct, held⟩
      rw [keeps]
      apply List.Perm.append_left
      have parted : (idlist ++ hand.diff idlist).Perm hand := by
        apply List.subperm_append_diff_self_of_count_le
        intro i member
        have one := List.nodup_iff_count_le_one.mp distinct i
        exact one.trans (List.count_pos_iff.mpr (held i member))
      simp only [AreaPc.keeps, ClientTask.keeps, List.append_nil]
      exact List.perm_append_comm.trans parted
  | releases =>
      refine inv.custody_client (client trivial) trivial ?_
      rw [keeps]
      exact List.Perm.refl _
  | gives hand addr handled cpu left c present =>
      refine inv.custody_client (client trivial) trivial ?_
      rcases inv.gives_room here present with ⟨rfl, -, items⟩
      rw [keeps]
      apply ((places_putIdle present items).append_right _).trans
      rw [List.perm_iff_count]
      intro j
      simp only [AreaPc.keeps, ClientTask.keeps, List.count_append, List.count_cons, if_true,
        Bool.false_eq_true, if_false]
      omega
  | stays =>
      by_cases kind : pc'.IsClient
      · refine inv.custody_client (client kind) kind ?_
        rw [keeps]
      · exact inv.custody_same (put kind) (List.Perm.refl _) owns.symm
  | _ => exact inv.custody_same (put id) (List.Perm.refl _) owns.symm

/-! ### The fifos -/

theorem QueueInv.frame {elem elem' : ℕ → IpKeyInfoWrap} (queue : QueueInv elem c)
    (same : ∀ i ∈ c.idle.items ++ c.ready.items, elem' i = elem i) : QueueInv elem' c := by
  refine ⟨queue.home, ?_, ?_, queue.idleSize, queue.readySize⟩
  · intro i member
    rw [same i (List.mem_append_left _ member)]
    exact queue.idleFree i member
  · intro i member
    rw [same i (List.mem_append_right _ member)]
    exact queue.readyInuse i member

section Queues

variable {elem : ℕ → IpKeyInfoWrap} {c : QueueData} {i : ℕ}

/-- An idle index is taken. -/
theorem QueueInv.pop {left : Kfifo ℕ} (queue : QueueInv elem c)
    (taken : c.idle.get = some (i, left)) : QueueInv elem { c with idle := left } := by
  rcases Kfifo.get_eq_some taken with ⟨items, size⟩
  refine ⟨?_, ?_, queue.readyInuse, ?_, queue.readySize⟩
  · intro j member
    apply queue.home j
    rcases List.mem_append.mp member with idle | ready
    · simp [items, show j ∈ left.items from idle]
    · exact List.mem_append_right _ ready
  · intro j member
    exact queue.idleFree j (by simp [items, show j ∈ left.items from member])
  · rw [size]
    exact queue.idleSize

/-- An index of the CPU that is in use is queued. -/
theorem QueueInv.putReady (queue : QueueInv elem c) (room : (c.ready.put i).1 = true)
    (inside : c.InRange i) (inuse : (elem i).state = .inuse) :
    QueueInv elem { c with ready := (c.ready.put i).2 } := by
  have items := items_put_of_room room
  refine ⟨?_, queue.idleFree, ?_, queue.idleSize, ?_⟩
  · intro j member
    simp only [items, List.mem_append, List.mem_singleton] at member
    rcases member with idle | ready | same
    · exact queue.home j (List.mem_append_left _ idle)
    · exact queue.home j (List.mem_append_right _ ready)
    · rw [same]
      exact inside
  · intro j member
    simp only [items, List.mem_append, List.mem_singleton] at member
    rcases member with ready | same
    · exact queue.readyInuse j ready
    · rw [same]
      exact inuse
  · rw [Kfifo.size_put]
    exact queue.readySize

/-- Queued indices are taken out. -/
theorem QueueInv.outReady (queue : QueueInv elem c) (num : ℕ) :
    QueueInv elem { c with ready := (c.ready.out num).2 } := by
  have drop : ∀ j ∈ c.ready.items.drop num, j ∈ c.ready.items := fun j => List.mem_of_mem_drop
  refine ⟨?_, queue.idleFree, ?_, queue.idleSize, queue.readySize⟩
  · intro j member
    rcases List.mem_append.mp member with idle | ready
    · exact queue.home j (List.mem_append_left _ idle)
    · exact queue.home j (List.mem_append_right _ (drop j ready))
  · exact fun j member => queue.readyInuse j (drop j member)

/-- An index of the CPU that is not in use becomes idle. -/
theorem QueueInv.putIdle (queue : QueueInv elem c)
    (items : (c.idle.put i).2.items = c.idle.items ++ [i]) (inside : c.InRange i)
    (free : (elem i).state ≠ .inuse) : QueueInv elem { c with idle := (c.idle.put i).2 } := by
  refine ⟨?_, ?_, queue.readyInuse, ?_, queue.readySize⟩
  · intro j member
    simp only [items, List.mem_append, List.mem_singleton] at member
    rcases member with (idle | same) | ready
    · exact queue.home j (List.mem_append_left _ idle)
    · rw [same]
      exact inside
    · exact queue.home j (List.mem_append_right _ ready)
  · intro j member
    simp only [items, List.mem_append, List.mem_singleton] at member
    rcases member with idle | same
    · exact queue.idleFree j idle
    · rw [same]
      exact free
  · rw [Kfifo.size_put]
    exact queue.idleSize

theorem QueueInv.alarm (queue : QueueInv elem c) : QueueInv elem c.updateAlarm := by
  rcases updateAlarm_fields c with ⟨start, endIdx, idle, ready⟩
  refine ⟨?_, ?_, ?_, ?_, ?_⟩
  · simp only [QueueData.InRange, start, endIdx, idle, ready]
    exact queue.home
  · rw [idle]
    exact queue.idleFree
  · rw [ready]
    exact queue.readyInuse
  · rw [start, endIdx, idle]
    exact queue.idleSize
  · rw [start, endIdx, ready]
    exact queue.readySize

end Queues

theorem AreaInv.queues_set (inv : AreaInv s) {c' : QueueData}
    (queue : QueueInv s.shared.pool.m.elem c') :
    ∀ c ∈ s.shared.pool.qptr.set cpu c', QueueInv s.shared.pool.m.elem c := by
  intro c member
  rcases List.mem_or_eq_of_mem_set member with old | new
  · exact inv.queues c old
  · rwa [new]

/-- An element of no fifo is written. -/
theorem AreaInv.queues_elem (inv : AreaInv s) (off : i ∉ s.shared.pool.places)
    (wrap : IpKeyInfoWrap) :
    ∀ c ∈ s.shared.pool.qptr, QueueInv (Function.update s.shared.pool.m.elem i wrap) c := by
  intro c member
  apply (inv.queues c member).frame
  intro j queued
  apply Function.update_of_ne
  intro same
  rw [same] at queued
  exact off (mem_places_iff.mpr ⟨c, member, List.mem_append.mp queued⟩)

theorem AreaInv.queues_step (inv : AreaInv s) (took : AreaTook s.shared (s.pc t) a' pc') :
    ∀ c ∈ a'.pool.qptr, QueueInv a'.pool.m.elem c := by
  have relies := inv.relies t
  generalize here : s.pc t = pc at took relies
  cases took with
  | pops cpu src c i left present taken =>
      exact inv.queues_set ((inv.queues c (List.mem_of_getElem? present)).pop taken)
  | queues cpu src i c present room =>
      rcases relies with ⟨⟨c', present', inside⟩, inuse, -⟩
      rw [present, Option.some.injEq] at present'
      subst present'
      have queue := inv.queues c (List.mem_of_getElem? present)
      exact inv.queues_set (queue.putReady room inside inuse)
  | putsBack => exact absurd relies id
  | alarms cpu c present =>
      exact inv.queues_set (inv.queues c (List.mem_of_getElem? present)).alarm
  | writes cpu src i wrap writes =>
      apply inv.queues_elem
      have owned : (s.pc t).owns = some i := by
        rw [here]
        cases writes <;> rfl
      exact (inv.off_of_owns owned).1
  | moves hand cpu copied num c present =>
      exact inv.queues_set ((inv.queues c (List.mem_of_getElem? present)).outReady num.toNat)
  | releases hand addr handled cpu left =>
      apply inv.queues_elem
      rcases relies.2 with ⟨rfl, _, _⟩
      have kept : addr ∈ (s.pc t).keeps := by
        rw [here]
        exact List.mem_append_right hand List.mem_cons_self
      exact (inv.off_of_keeps kept).1
  | gives hand addr handled cpu left c present =>
      rcases inv.gives_room here present with ⟨rfl, inside, items⟩
      have free : (s.shared.pool.m.elem addr).state ≠ .inuse := relies.2.2.2.1
      have queue := inv.queues c (List.mem_of_getElem? present)
      exact inv.queues_set (queue.putIdle items inside free)
  | _ => exact inv.queues

end Step

end Linguafranca.Ipshark2
