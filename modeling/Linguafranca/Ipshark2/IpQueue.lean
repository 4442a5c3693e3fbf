import Linguafranca.Ips
import Linguafranca.Support.Kfifo
import Mathlib.Logic.Function.Basic

/-!
# The index pool of ipshark2

`ip_queue.c` keeps the records in an area shared with the client and moves their indices
around: each CPU owns a range of them, an idle fifo and a ready fifo. A put takes an idle
index of its CPU, fills the record and queues the index as ready; `ip_queue_move2dma` hands
ready indices of all CPUs to the client; the client gives them back by
`ip_queue_recycle`.

Indices are numbers with the wrap-around of `unsigned short` written out where it can
occur. The CPUs are the list of possible CPUs in the order of `for_each_possible_cpu`. The
outcome of each allocation is an argument; a fifo is allocated with the requested size and
whatever is added to it by rounding up.
-/

namespace Linguafranca.Ipshark2

/-- The state of an element of the area. -/
inductive MemState where
  | free
  | inuse
  | used
deriving DecidableEq

/-- An element of the area: a record, how often it was used, and its state. -/
structure IpKeyInfoWrap where
  info : IpKeyInfo
  times : BitVec 24
  state : MemState

/-- The number of indices of one delivery. -/
abbrev ipsIdxArraySize : ℕ := 128

/-- The area shared with the client; `elem` has the elements from index zero on. -/
structure IpsDmaArea where
  idxArray : List ℕ
  idxNum : ℕ
  ipKeyInfoTotalSize : ℕ
  elem : ℕ → IpKeyInfoWrap

/-- The queue size that a request asks for on one CPU. -/
structure IpsCpuQueueSize where
  cpuidx : Int16
  size : UInt16

/-- The queues of one CPU and its range of indices; `alarm` says that a warning was printed. -/
structure QueueData where
  start : ℕ
  endIdx : ℕ
  idle : Kfifo ℕ
  ready : Kfifo ℕ
  alarm : Bool

/-- The counters of `ip_queue.c`. -/
structure Counters where
  puttimes : UInt32
  queueTimes : UInt64
  recycleTimes : UInt64
  putfail : UInt32
  getfail : UInt32
  getInvalidIdxTimes : UInt32
  recycleInvalidIdxTimes : UInt32

/-- The static variables of `ip_queue.c` while a pool exists. -/
structure IpQueue where
  qptr : List QueueData
  m : IpsDmaArea
  waitMs : ℕ
  counters : Counters

/-- The error number `ENOMEM`. -/
def enomem : Int := 12

/-- The error number `EINVAL`. -/
def einval : Int := 22

/-! ## Creating the pool -/

/-- The first size given for a CPU, or the default. -/
def getsize (cpu : ℕ) (s : List IpsCpuQueueSize) (defaultSize : UInt16) : UInt16 :=
  match s with
  | [] => defaultSize
  | first :: rest => if first.cpuidx.toInt = cpu then first.size else getsize cpu rest defaultSize

/-- The allocations made for one CPU; a fifo comes with the size added by rounding up. -/
structure CpuAlloc where
  dataptr : Bool
  ready : Option ℕ
  idle : Option ℕ

/-- Put each index of the range into the idle fifo, up to the first that does not fit. -/
def fillIdle (idle : Kfifo ℕ) : List ℕ → Bool × Kfifo ℕ
  | [] => (true, idle)
  | i :: rest =>
      if (idle.put i).1 then fillIdle (idle.put i).2 rest else (false, idle)

/-- The loop over the CPUs: the error, the number of indices and the queues set up. -/
def createLoop (s : List IpsCpuQueueSize) (defaultSize : UInt16) :
    ℕ → ℕ → Int → List CpuAlloc → Int × ℕ × List QueueData
  | _, pre, ret, [] => (ret, pre, [])
  | cpu, pre, ret, alloc :: rest =>
      if !alloc.dataptr then (-enomem, pre, [])
      else
        let size := (getsize cpu s defaultSize).toNat
        let next := (pre + size) % 65536
        -- it is much more than 65535, wrap around
        if next < size then (-einval, next, [])
        else
          match alloc.ready, alloc.idle with
          | none, _ => (-enomem, next, [])
          | _, none => (-enomem, next, [])
          | some addedReady, some addedIdle =>
              -- A full idle fifo ends the inner loop only.
              let filled := fillIdle (Kfifo.alloc (size + addedIdle)) (List.range' pre (next - pre))
              let ret := if filled.1 then ret else -enomem
              let later := createLoop s defaultSize (cpu + 1) next ret rest
              (later.1, later.2.1,
                ⟨pre, next, filled.2, Kfifo.alloc (size + addedReady), false⟩ :: later.2.2)

/-- A record of bytes 0xec, as `memset` leaves it. -/
def infoEc : IpKeyInfo :=
  { inDev := ⟨List.replicate 16 0xec, by simp⟩
    outDev := ⟨List.replicate 16 0xec, by simp⟩
    s := ⟨List.replicate 16 0xec, by simp⟩
    d := ⟨List.replicate 16 0xec, by simp⟩
    version := 0xc
    direct := 0xe
    protocol := 0xec
    sport := 0xecec
    dport := 0xecec
    totallen := 0xecec }

/-- The elements below `pre` are free; behind them lies whatever memory holds. -/
def newElem (pre : ℕ) (behind : ℕ → IpKeyInfoWrap) (i : ℕ) : IpKeyInfoWrap :=
  if i < pre then ⟨infoEc, 0, .free⟩ else behind i

/-- The size in bytes of an area with that many elements. -/
def areaSize (pre : ℕ) : ℕ :=
  260 + 76 * pre

/-- The result of the call, and the pool when it succeeds. -/
def ipQueueCreate (s : List IpsCpuQueueSize) (defaultSize : UInt16) (ms : UInt16)
    (percpu : Bool) (cpus : List CpuAlloc) (vmalloc : Bool) (behind : ℕ → IpKeyInfoWrap)
    (counters : Counters) : Int × Option IpQueue :=
  if !percpu then (-enomem, none)
  else
    let created := createLoop s defaultSize 0 0 0 cpus
    let pre := created.2.1
    if created.1 ≠ 0 then (created.1, none)
    else if !vmalloc then (-enomem, none)
    else
      (areaSize pre, some
        { qptr := created.2.2
          m :=
            { idxArray := List.replicate ipsIdxArraySize 0xecec
              idxNum := 0
              ipKeyInfoTotalSize := pre
              elem := newElem pre behind }
          waitMs := if ms < 10 then 10 else if ms > 1000 then 1000 else ms.toNat
          counters := counters })

/-! ## Putting a record -/

/-- The loop that takes idle indices until one is not in use: the index, if any, the number
of indices in use that were dropped, and what is left. The fuel is the number of turns. -/
def getIdle (elem : ℕ → IpKeyInfoWrap) : ℕ → Kfifo ℕ → Option ℕ × ℕ × Kfifo ℕ
  | 0, idle => (none, 0, idle)
  | turns + 1, idle =>
      match idle.get with
      | none => (none, 0, idle)
      | some (i, left) =>
          if (elem i).state = .inuse then
            let later := getIdle elem turns left
            (later.1, later.2.1 + 1, later.2.2)
          else (some i, 0, left)

/-- Enough turns to empty the fifo. -/
def takeIdle (elem : ℕ → IpKeyInfoWrap) (idle : Kfifo ℕ) : Option ℕ × ℕ × Kfifo ℕ :=
  getIdle elem (idle.items.length + 1) idle

/-- The alarm is set above three quarters and cleared below one half. -/
def QueueData.updateAlarm (c : QueueData) : QueueData :=
  if c.alarm then
    if c.ready.items.length < c.ready.size / 2 then { c with alarm := false } else c
  else if c.ready.items.length > 3 * c.ready.size / 4 then { c with alarm := true }
  else c

/-- Fill element `i` with the record. -/
def IpsDmaArea.fill (m : IpsDmaArea) (i : ℕ) (src : IpKeyInfo) : IpsDmaArea :=
  { m with elem := Function.update m.elem i ⟨src, (m.elem i).times + 1, .inuse⟩ }

@[simp]
theorem elem_fill (m : IpsDmaArea) (i : ℕ) (src : IpKeyInfo) :
    (m.fill i src).elem = Function.update m.elem i ⟨src, (m.elem i).times + 1, .inuse⟩ :=
  rfl

@[simp]
theorem total_fill (m : IpsDmaArea) (i : ℕ) (src : IpKeyInfo) :
    (m.fill i src).ipKeyInfoTotalSize = m.ipKeyInfoTotalSize :=
  rfl

/-- Queue a filled index as ready; if that fails it goes back to the idle fifo. -/
def QueueData.putReady (c : QueueData) (i : ℕ) : Bool × QueueData :=
  if (c.ready.put i).1 then (true, { c with ready := (c.ready.put i).2 })
  else (false, { c with idle := (c.idle.put i).2 })

/-- `ip_queue_put` on a CPU: an idle index is taken, filled in and queued. -/
def ipQueuePut (cpu : ℕ) (src : IpKeyInfo) (q : IpQueue) : IpQueue :=
  match q.qptr[cpu]? with
  | none => q
  | some c =>
      let taken := takeIdle q.m.elem c.idle
      let counters :=
        { q.counters with
          puttimes := q.counters.puttimes + 1
          getInvalidIdxTimes := q.counters.getInvalidIdxTimes + UInt32.ofNat taken.2.1 }
      let c := { c with idle := taken.2.2 }
      match taken.1 with
      | none =>
          { q with
            qptr := q.qptr.set cpu c
            counters := { counters with getfail := counters.getfail + 1 } }
      | some i =>
          let queued := c.putReady i
          { q with
            qptr := q.qptr.set cpu queued.2.updateAlarm
            m := q.m.fill i src
            counters :=
              if queued.1 then { counters with queueTimes := counters.queueTimes + 1 }
              else counters }

/-! ## Handing indices over -/

/-- The loop over the CPUs: the indices copied and the queues afterwards. -/
def move2dmaLoop : List QueueData → ℕ → Int → List ℕ × List QueueData
  | [], _, _ => ([], [])
  | c :: cpus, copied, num =>
      if c.ready.items = [] then
        let later := move2dmaLoop cpus copied num
        (later.1, c :: later.2)
      else
        let moved := c.ready.out num.toNat
        let copied := copied + moved.1.length
        -- `copied` counts the indices of all CPUs so far.
        let num := num - copied
        if num ≤ 0 then (moved.1, { c with ready := moved.2 } :: cpus)
        else
          let later := move2dmaLoop cpus copied num
          (moved.1 ++ later.1, { c with ready := moved.2 } :: later.2)

/-- `ip_queue_move2dma`: the queued indices of the CPUs are copied to the head of the area. -/
def ipQueueMove2dma (q : IpQueue) : IpQueue :=
  let moved := move2dmaLoop q.qptr 0 ipsIdxArraySize
  { q with
    qptr := moved.2
    m :=
      { q.m with
        idxArray := moved.1 ++ q.m.idxArray.drop moved.1.length
        idxNum := moved.1.length } }

/-- The indices the client finds after `ip_queue_move2dma`. -/
def IpsDmaArea.delivered (m : IpsDmaArea) : List ℕ :=
  m.idxArray.take m.idxNum

/-! ## Taking indices back -/

/-- The index belongs to the CPU. -/
def QueueData.InRange (c : QueueData) (i : ℕ) : Prop :=
  c.start ≤ i ∧ i < c.endIdx

instance (c : QueueData) (i : ℕ) : Decidable (c.InRange i) :=
  inferInstanceAs (Decidable (_ ∧ _))

/-- The scan over the CPUs with the current content of `idlist[i]`, which a CPU that takes
the index sets to zero: whether it was handled, the counters and the queues. -/
def recycleScan : List QueueData → ℕ → Counters → Bool × Counters × List QueueData
  | [], _, counters => (false, counters, [])
  | c :: cpus, i, counters =>
      if c.InRange i then
        let put := c.idle.put i
        let counters :=
          { counters with
            putfail := if put.1 then counters.putfail else counters.putfail + 1
            recycleTimes := counters.recycleTimes + 1 }
        let later := recycleScan cpus 0 counters
        (true, later.2.1, { c with idle := put.2 } :: later.2.2)
      else
        let later := recycleScan cpus i counters
        (later.1, later.2.1, c :: later.2.2)

/-- An element is used and free to be taken again. -/
def IpsDmaArea.release (m : IpsDmaArea) (i : ℕ) : IpsDmaArea :=
  { m with elem := Function.update m.elem i { m.elem i with state := .used } }

@[simp]
theorem elem_release (m : IpsDmaArea) (i : ℕ) :
    (m.release i).elem = Function.update m.elem i { m.elem i with state := .used } :=
  rfl

@[simp]
theorem total_release (m : IpsDmaArea) (i : ℕ) :
    (m.release i).ipKeyInfoTotalSize = m.ipKeyInfoTotalSize :=
  rfl

/-- One turn of `ip_queue_recycle`: what is left in `idlist[i]`, and the pool. -/
def recycleOne (q : IpQueue) (i : ℕ) : ℕ × IpQueue :=
  if (q.m.elem i).state ≠ .inuse then
    (i, { q with
      counters :=
        { q.counters with
          recycleInvalidIdxTimes := q.counters.recycleInvalidIdxTimes + 1 } })
  else
    let scanned := recycleScan q.qptr i q.counters
    (if scanned.1 then 0 else i,
      { q with
        qptr := scanned.2.2
        m := if scanned.1 then q.m.release i else q.m
        counters := scanned.2.1 })

/-- `ip_queue_recycle` over a list, with the element that each index makes it access. -/
def ipQueueRecycle : List ℕ → IpQueue → List ℕ × IpQueue
  | [], q => ([], q)
  | i :: idlist, q =>
      let one := recycleOne q i
      let later := ipQueueRecycle idlist one.2
      (one.1 :: later.1, later.2)

end Linguafranca.Ipshark2
