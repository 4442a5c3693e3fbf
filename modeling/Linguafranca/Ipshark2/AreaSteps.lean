import Linguafranca.Ipshark2.SharedArea

/-!
# What a step on the shared area can do

A thread whose elements and queues are there (`AreaPc.Usable`) takes one of the steps of
`AreaTook`, each with what the thread saw and what it left.
-/

namespace Linguafranca.Ipshark2

namespace ClientTask

/-- The indices on their way to the client or back. -/
def keeps : ClientTask → List ℕ
  | user => []
  | moving _ copied _ | moved copied => copied
  | taking left => left
  | scanning addr handled _ left | releasing addr handled _ left | giving addr handled _ left =>
      if handled then left else addr :: left

/-- What the client needs of the area for its next step. -/
def Usable (a : SharedArea) : ClientTask → Prop
  | moving _ copied num => copied.length + num.toNat ≤ ipsIdxArraySize
  | taking left => ∀ i ∈ left, i < a.pool.m.ipKeyInfoTotalSize
  | releasing addr _ _ _ => addr < a.pool.m.ipKeyInfoTotalSize
  | giving _ _ cpu _ => cpu < a.pool.qptr.length
  | _ => True

end ClientTask

namespace AreaPc

/-- The CPU of a packet that is being put. -/
def cpu : AreaPc → Option ℕ
  | popping cpu _ | popped cpu _ _ | copying cpu _ _ _ | counting cpu _ _ | marking cpu _ _
  | queueing cpu _ _ | refused cpu _ | alarming cpu | leaving cpu => some cpu
  | _ => none

/-- The index that a put has taken and not queued yet. -/
def owns : AreaPc → Option ℕ
  | popped _ _ s | copying _ _ s _ | counting _ _ s | marking _ _ s | queueing _ _ s
  | refused _ s => some s
  | _ => none

/-- The indices with the client. -/
def keeps : AreaPc → List ℕ
  | client hand task => hand ++ task.keeps
  | _ => []

/-- The thread is the client. -/
def IsClient : AreaPc → Prop
  | client _ _ => True
  | _ => False

/-- The next step of the thread stays within the queues and the elements. -/
def Usable (a : SharedArea) : AreaPc → Prop
  | popping cpu _ | queueing cpu _ _ | refused cpu _ | alarming cpu => cpu < a.pool.qptr.length
  | popped _ _ s | copying _ _ s _ | counting _ _ s | marking _ _ s =>
      s < a.pool.m.ipKeyInfoTotalSize
  | client _ task => task.Usable a
  | fault => False
  | _ => True

end AreaPc

/-- A put writes the element of its index. -/
inductive Writes (elem : ℕ → IpKeyInfoWrap) (cpu : ℕ) (src : IpKeyInfo) (s : ℕ) :
    IpKeyInfoWrap → AreaPc → AreaPc → Prop where
  | half (torn : IpKeyInfo) : Writes elem cpu src s { elem s with info := torn }
      (.copying cpu src s false) (.copying cpu src s true)
  | whole : Writes elem cpu src s { elem s with info := src }
      (.copying cpu src s true) (.counting cpu src s)
  | times : Writes elem cpu src s { elem s with times := (elem s).times + 1 }
      (.counting cpu src s) (.marking cpu src s)
  | state : Writes elem cpu src s { elem s with state := .inuse }
      (.marking cpu src s) (.queueing cpu src s)

/-- Where a fetch goes on after a CPU. -/
inductive MovesOn (cpu : ℕ) (copied : List ℕ) (num : Int) : ClientTask → Prop where
  | full : num ≤ 0 → MovesOn cpu copied num (.moved copied)
  | next : 0 < num → MovesOn cpu copied num (.moving (cpu + 1) copied num)

/-- A step of the client that neither changes the area nor what the client holds. -/
inductive Looks (q : IpQueue) : ClientTask → ClientTask → Prop where
  | fetches : Looks q .user (.moving 0 [] ipsIdxArraySize)
  | skips (cpu : ℕ) (copied : List ℕ) (num : Int) :
      Looks q (.moving cpu copied num) (.moving (cpu + 1) copied num)
  | ends (cpu : ℕ) (copied : List ℕ) (num : Int) : q.qptr[cpu]? = none →
      Looks q (.moving cpu copied num) (.moved copied)
  | finished : Looks q (.taking []) .user
  | ignores (addr : ℕ) (left : List ℕ) : (q.m.elem addr).state ≠ .inuse →
      Looks q (.taking (addr :: left)) (.taking left)
  | begins (addr : ℕ) (left : List ℕ) : (q.m.elem addr).state = .inuse →
      Looks q (.taking (addr :: left)) (.scanning addr false 0 left)
  | scanned (addr : ℕ) (handled : Bool) (cpu : ℕ) (left : List ℕ) : q.qptr[cpu]? = none →
      Looks q (.scanning addr handled cpu left) (.taking left)
  | passes (addr : ℕ) (handled : Bool) (cpu : ℕ) (left : List ℕ) (c : QueueData) :
      q.qptr[cpu]? = some c → ¬c.InRange (idlistCell addr handled) →
      Looks q (.scanning addr handled cpu left) (.scanning addr handled (cpu + 1) left)
  | hits (addr : ℕ) (handled : Bool) (cpu : ℕ) (left : List ℕ) (c : QueueData) :
      q.qptr[cpu]? = some c → c.InRange (idlistCell addr handled) →
      Looks q (.scanning addr handled cpu left) (.releasing addr handled cpu left)

/-- One step of a thread, on the area and the thread. -/
inductive AreaTook (a : SharedArea) : AreaPc → SharedArea → AreaPc → Prop where
  | stays (pc : AreaPc) : AreaTook a pc a pc
  | arrives (src : IpKeyInfo) : AreaTook a .resting a (.arrived src)
  | enters (cpu : ℕ) (src : IpKeyInfo) : a.putting cpu = false → cpu < a.pool.qptr.length →
      AreaTook a (.arrived src) (a.setPutting cpu true) (.popping cpu src)
  | drops (cpu : ℕ) (src : IpKeyInfo) (c : QueueData) : a.pool.qptr[cpu]? = some c →
      c.idle.items = [] → AreaTook a (.popping cpu src) a (.leaving cpu)
  | pops (cpu : ℕ) (src : IpKeyInfo) (c : QueueData) (s : ℕ) (left : Kfifo ℕ) :
      a.pool.qptr[cpu]? = some c → c.idle.get = some (s, left) →
      AreaTook a (.popping cpu src) (a.setQueue cpu { c with idle := left }) (.popped cpu src s)
  | retries (cpu : ℕ) (src : IpKeyInfo) (s : ℕ) : (a.pool.m.elem s).state = .inuse →
      AreaTook a (.popped cpu src s) a (.popping cpu src)
  | keeps (cpu : ℕ) (src : IpKeyInfo) (s : ℕ) : (a.pool.m.elem s).state ≠ .inuse →
      AreaTook a (.popped cpu src s) a (.copying cpu src s false)
  | writes (cpu : ℕ) (src : IpKeyInfo) (s : ℕ) (wrap : IpKeyInfoWrap) {pc pc' : AreaPc} :
      Writes a.pool.m.elem cpu src s wrap pc pc' → AreaTook a pc (a.setElem s wrap) pc'
  | queues (cpu : ℕ) (src : IpKeyInfo) (s : ℕ) (c : QueueData) : a.pool.qptr[cpu]? = some c →
      (c.ready.put s).1 = true →
      AreaTook a (.queueing cpu src s) (a.setQueue cpu { c with ready := (c.ready.put s).2 })
        (.alarming cpu)
  | refuses (cpu : ℕ) (src : IpKeyInfo) (s : ℕ) (c : QueueData) : a.pool.qptr[cpu]? = some c →
      (c.ready.put s).1 = false → AreaTook a (.queueing cpu src s) a (.refused cpu s)
  | putsBack (cpu s : ℕ) (c : QueueData) : a.pool.qptr[cpu]? = some c →
      AreaTook a (.refused cpu s) (a.setQueue cpu { c with idle := (c.idle.put s).2 })
        (.alarming cpu)
  | alarms (cpu : ℕ) (c : QueueData) : a.pool.qptr[cpu]? = some c →
      AreaTook a (.alarming cpu) (a.setQueue cpu c.updateAlarm) (.leaving cpu)
  | leaves (cpu : ℕ) : AreaTook a (.leaving cpu) (a.setPutting cpu false) .resting
  | looks (hand : List ℕ) {task task' : ClientTask} : Looks a.pool task task' →
      AreaTook a (.client hand task) a (.client hand task')
  | moves (hand : List ℕ) (cpu : ℕ) (copied : List ℕ) (num : Int) (c : QueueData)
      {task : ClientTask} : a.pool.qptr[cpu]? = some c →
      (copied ++ (c.ready.out num.toNat).1).length ≤ ipsIdxArraySize →
      MovesOn cpu (copied ++ (c.ready.out num.toNat).1)
        (num - (copied ++ (c.ready.out num.toNat).1).length) task →
      AreaTook a (.client hand (.moving cpu copied num))
        ((a.setQueue cpu { c with ready := (c.ready.out num.toNat).2 }).setIdxArray
          (copied ++ (c.ready.out num.toNat).1))
        (.client hand task)
  | publishes (hand copied : List ℕ) :
      AreaTook a (.client hand (.moved copied)) (a.setIdxNum copied.length)
        (.client (hand ++ (a.setIdxNum copied.length).pool.m.delivered) .user)
  | frees (hand idlist : List ℕ) :
      AreaTook a (.client hand .user) a (.client (hand.diff idlist) (.taking idlist))
  | releases (hand : List ℕ) (addr : ℕ) (handled : Bool) (cpu : ℕ) (left : List ℕ) :
      AreaTook a (.client hand (.releasing addr handled cpu left))
        (a.setElem addr { a.pool.m.elem addr with state := .used })
        (.client hand (.giving addr handled cpu left))
  | gives (hand : List ℕ) (addr : ℕ) (handled : Bool) (cpu : ℕ) (left : List ℕ)
      (c : QueueData) : a.pool.qptr[cpu]? = some c →
      AreaTook a (.client hand (.giving addr handled cpu left))
        (a.setQueue cpu { c with idle := (c.idle.put (idlistCell addr handled)).2 })
        (.client hand (.scanning addr true (cpu + 1) left))

section

variable {a : SharedArea} {cpu s : ℕ}

theorem num2addr_of_lt (inside : s < a.pool.m.ipKeyInfoTotalSize) :
    a.num2addr s = some (a.pool.m.elem s) :=
  if_pos inside

theorem exists_queue (inside : cpu < a.pool.qptr.length) : ∃ c, a.pool.qptr[cpu]? = some c :=
  ⟨_, List.getElem?_eq_getElem inside⟩

theorem took_putNext (cpu : ℕ) (torn : IpKeyInfo) {pc : AreaPc} (usable : pc.Usable a) :
    AreaTook a pc (putNext a cpu torn pc).1 (putNext a cpu torn pc).2 := by
  cases pc with
  | arrived src =>
      rw [putNext]
      split
      · exact .stays _
      · next free =>
          rw [not_or, Bool.not_eq_true, not_le] at free
          exact .enters cpu src free.1 free.2
  | popping cpu src =>
      rcases exists_queue usable with ⟨c, present⟩
      simp only [putNext, present]
      cases taken : c.idle.get with
      | none =>
          apply AreaTook.drops cpu src c present
          rcases c with ⟨start, endIdx, ⟨items, size, bounded⟩, ready, alarm⟩
          cases items with
          | nil => rfl
          | cons s rest => exact absurd taken (by simp [Kfifo.get])
      | some pair => exact .pops cpu src c pair.1 pair.2 present taken
  | popped cpu src s =>
      simp only [putNext, num2addr_of_lt usable]
      split
      · next busy => exact .retries cpu src s busy
      · next free => exact .keeps cpu src s free
  | copying cpu src s half =>
      simp only [putNext, num2addr_of_lt usable]
      cases half with
      | false => exact .writes cpu src s _ (.half torn)
      | true => exact .writes cpu src s _ .whole
  | counting cpu src s =>
      simp only [putNext, num2addr_of_lt usable]
      exact .writes cpu src s _ .times
  | marking cpu src s =>
      simp only [putNext, num2addr_of_lt usable]
      exact .writes cpu src s _ .state
  | queueing cpu src s =>
      rcases exists_queue usable with ⟨c, present⟩
      simp only [putNext, present]
      split
      · next room => exact .queues cpu src s c present room
      · next full => exact .refuses cpu src s c present (Bool.eq_false_iff.mpr full)
  | refused cpu s =>
      rcases exists_queue usable with ⟨c, present⟩
      simp only [putNext, present]
      exact .putsBack cpu s c present
  | alarming cpu =>
      rcases exists_queue usable with ⟨c, present⟩
      simp only [putNext, present]
      exact .alarms cpu c present
  | leaving cpu => exact .leaves cpu
  | resting | client | fault => exact .stays _

theorem took_clientNext (hand : List ℕ) {task : ClientTask} (usable : task.Usable a) :
    AreaTook a (.client hand task) (clientNext a hand task).1 (clientNext a hand task).2 := by
  cases task with
  | user => exact .stays _
  | moving cpu copied num =>
      rw [clientNext]
      cases present : a.pool.qptr[cpu]? with
      | none => exact .looks hand (.ends cpu copied num present)
      | some c =>
          have fits : (copied ++ (c.ready.out num.toNat).1).length ≤ ipsIdxArraySize := by
            apply le_trans ?_ usable
            simp [Kfifo.out]
          simp only [if_neg (not_lt.mpr fits)]
          split
          · exact .looks hand (.skips cpu copied num)
          · split
            · next full => exact .moves hand cpu copied num c present fits (.full full)
            · next more => exact .moves hand cpu copied num c present fits (.next (not_le.mp more))
  | moved copied => exact .publishes hand copied
  | taking left =>
      cases left with
      | nil => exact .looks hand .finished
      | cons addr left =>
          simp only [clientNext, num2addr_of_lt (usable addr List.mem_cons_self)]
          split
          · next free => exact .looks hand (.ignores addr left free)
          · next busy => exact .looks hand (.begins addr left (not_not.mp busy))
  | scanning addr handled cpu left =>
      rw [clientNext]
      cases present : a.pool.qptr[cpu]? with
      | none => exact .looks hand (.scanned addr handled cpu left present)
      | some c =>
          simp only
          split
          · next inside => exact .looks hand (.hits addr handled cpu left c present inside)
          · next outside => exact .looks hand (.passes addr handled cpu left c present outside)
  | releasing addr handled cpu left =>
      simp only [clientNext, num2addr_of_lt usable]
      exact .releases hand addr handled cpu left
  | giving addr handled cpu left =>
      rcases exists_queue usable with ⟨c, present⟩
      simp only [clientNext, present]
      exact .gives hand addr handled cpu left c present

theorem took_areaAct (pc : AreaPc) (act : AreaAct) (usable : pc.Usable a) :
    AreaTook a pc (areaAct a pc act).1 (areaAct a pc act).2 := by
  cases act with
  | put src =>
      cases pc with
      | resting => exact .arrives src
      | _ => exact .stays _
  | fetch =>
      cases pc with
      | client hand task =>
          cases task with
          | user => exact .looks hand .fetches
          | _ => exact .stays _
      | _ => exact .stays _
  | free idlist =>
      cases pc with
      | client hand task =>
          cases task with
          | user => exact .frees hand idlist
          | _ => exact .stays _
      | _ => exact .stays _
  | next cpu torn =>
      cases pc with
      | client hand task => exact took_clientNext hand usable
      | _ => exact took_putNext cpu torn usable

end

end Linguafranca.Ipshark2
