import Linguafranca.Ipshark.Intern
import Linguafranca.Support.Kfifo

/-!
# The packet queues of ipshark

`ip_queue.c` keeps one fifo of records for each possible CPU; the CPUs are a list in the
order of `for_each_possible_cpu`. The outcomes of the allocations and of
`wait_event_interruptible_timeout` are arguments.
-/

namespace Linguafranca.Ipshark

/-- The number of records that the queue of a CPU holds. -/
def ipFifoSize : ℕ := 1024 * 16

/-- The queue of one CPU, and whether a warning was printed that it is filling up. -/
structure CpuFifo where
  fifo : Kfifo IpKeyInfo
  alarm : Bool

/-- The static variables of `ip_queue.c`. -/
structure IpQueue where
  ipFifo : Option (List CpuFifo)
  unQueuedPkts : UInt64
  putPkts : UInt64
  getPkts : UInt64

/-- `ip_queue_exit`: the queues are freed with what is in them. -/
def ipQueueExit (q : IpQueue) : IpQueue :=
  match q.ipFifo with
  | none => q
  | some _ => ⟨none, 0, 0, 0⟩

/-- `vmalloc` has the outcome of the allocation for each possible CPU. -/
def ipQueueInit (allocPercpu : Bool) (vmalloc : List Bool) (q : IpQueue) : Int × IpQueue :=
  if !allocPercpu then (-enomem, { q with ipFifo := none })
  else
    let created := { q with ipFifo := some (vmalloc.map fun _ => ⟨Kfifo.alloc ipFifoSize, false⟩) }
    if vmalloc.all id then (0, created) else (-enomem, ipQueueExit created)

/-- The alarm goes on above four fifths and off below three fifths. -/
def updateAlarm (c : CpuFifo) : CpuFifo :=
  if c.alarm then
    { c with alarm := !decide (c.fifo.items.length < ipFifoSize * 3 / 5) }
  else { c with alarm := decide (c.fifo.items.length > ipFifoSize * 4 / 5) }

/-- `ip_queue_put` on a CPU: the record is queued if there is room, and counted either way. -/
def ipQueuePut (cpu : ℕ) (info : IpKeyInfo) (q : IpQueue) : Bool × IpQueue :=
  match q.ipFifo with
  | none => (false, q)
  | some cpus =>
      match cpus[cpu]? with
      | none => (false, q)
      | some c =>
          let put := c.fifo.put info
          let cpus' := cpus.set cpu (updateAlarm { c with fifo := put.2 })
          if put.1 then (true, { q with ipFifo := some cpus', putPkts := q.putPkts + 1 })
          else (false, { q with ipFifo := some cpus', unQueuedPkts := q.unQueuedPkts + 1 })

/-- `ip_queue_len`: the number of queued records, or 1 without a queue. -/
def ipQueueLen (q : IpQueue) : ℕ :=
  match q.ipFifo with
  | none => 1
  | some cpus => (cpus.map fun c => c.fifo.items.length).sum

/-- `waited` is what `wait_event_interruptible_timeout` returns. -/
def ipQueueWait (waited : Int) (q : IpQueue) : Int :=
  if waited = 0 then ipQueueLen q else waited

/-- Write records to an array from a slot on. -/
def writeFrom (array : ℕ → IpKeyInfo) (slot : ℕ) (records : List IpKeyInfo) : ℕ → IpKeyInfo :=
  fun i => if slot ≤ i then (records[i - slot]?).getD (array i) else array i

/-- The loop over the CPUs: the number of copied records, the array and the queues. -/
def getLoop (n : UInt32) : ℕ → ℕ → (ℕ → IpKeyInfo) → List CpuFifo →
    ℕ × (ℕ → IpKeyInfo) × List CpuFifo
  | _, copied, array, [] => (copied, array, [])
  | infonum, copied, array, c :: rest =>
      if c.fifo.items.isEmpty then
        let later := getLoop n infonum copied array rest
        (later.1, later.2.1, c :: later.2.2)
      else
        let out := c.fifo.out infonum
        let array := writeFrom array copied out.1
        let copied := copied + out.1.length
        let infonum := (n - UInt32.ofNat copied).toNat
        if infonum = 0 then (copied, array, { c with fifo := out.2 } :: rest)
        else
          let later := getLoop n infonum copied array rest
          (later.1, later.2.1, { c with fifo := out.2 } :: later.2.2)

/-- The number of records got, the array they are in and the queue. -/
def ipQueueGet (n : UInt32) (array : ℕ → IpKeyInfo) (q : IpQueue) :
    UInt32 × (ℕ → IpKeyInfo) × IpQueue :=
  match q.ipFifo with
  | none => (0, array, q)
  | some cpus =>
      let got := getLoop n n.toNat 0 array cpus
      (UInt32.ofNat got.1, got.2.1,
        { q with ipFifo := some got.2.2, getPkts := q.getPkts + UInt64.ofNat got.1 })

end Linguafranca.Ipshark
