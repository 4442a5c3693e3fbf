import Linguafranca.Nfstat.IpCounter
import Linguafranca.Support.Interleaving
import Linguafranca.Support.RwLock

/-!
# The counter entries in memory

`ip_counter.c` with its memory, its lock and its `/proc` files, one atomic step at a time.
Any number of threads add and remove addresses, count packets, read the counters of an
address and print its file; between two steps of one thread the others may take theirs. A
thread that holds `iptreelock` runs on a CPU with interrupts off, where nothing else runs
until it gives the lock back.

The tree is a tree of pointers. What the kernel decides is an argument of a step: the
memory `kzalloc` hands out, whether the other allocations succeed, the CPU and the shape of
the tree after a rebalancing. A thread that uses memory which is not allocated or a slot
that is not there, or copies an address over the end of its entry, ends in `fault`.

`create()` is one step: what it does before `proc_create_data` is known to its own thread
only. The per-CPU area of an entry is allocated and freed together with the entry. The text
of the file and the vectors `nfs_getcounter_perip` adds up are left out; the slots that
are read for them are not.
-/

namespace Linguafranca.Nfstat

open Run Interleaving SearchTree

/-- `struct ip_counter_entry`. -/
structure NamedEntry extends IpCounterEntry where
  name : List Char

/-- The counter tree in memory, with its lock and its files; entries are numbers. -/
structure Store where
  iptree : BinaryTree ℕ
  iptreelock : RwLock
  irqsOff : ℕ → Bool
  entries : ℕ → Option NamedEntry
  /-- The files of `ipcounter_dir`, each with its private pointer. -/
  files : List Char → Option ℕ
  /-- How many reads of the file of an entry are under way. -/
  users : ℕ → ℕ
  ipcounterid : UInt32
  ipnumber : UInt32

/-- What the rest of the module asks of the store. -/
inductive StoreRequest where
  | addipentry (ip : NfsIpaddr)
  | rmvipentry (ip : NfsIpaddr)
  | inccounter (ip : NfsIpaddr) (typeidx : UInt8) (bytes : UInt64)
  | nfsGetcounterPerip (ip : NfsIpaddr)
  | ipCounterShow (name : List Char)

/-- The address to add fits its array, and the type of the packet has a slot. -/
def StoreRequest.Fits (maxtype : UInt8) : StoreRequest → Prop
  | addipentry ip => ip.len ≤ 16
  | inccounter _ typeidx _ => typeidx < maxtype
  | _ => True

/-- What the kernel decides at a step. -/
structure Outcome where
  kzalloc : Option ℕ
  allocPercpu : Bool
  procCreateData : Bool
  cpu : ℕ
  rebalance : Rebalance ℕ

/-- A packet being counted: the entry that was found for its address. -/
structure Counting where
  cpu : ℕ
  ip : NfsIpaddr
  entry : ℕ
  typeidx : UInt8
  bytes : UInt64

/-- How far `number++` and `bytes += bytes` have come. -/
inductive CountStage where
  | found
  | numberRead (number : UInt64)
  | numberWritten
  | bytesRead (bytes : UInt64)

/-- How far `delete` has come. -/
inductive DeleteStage where
  | unlink
  /-- `remove_proc_entry` waits for the reads of the file of this entry. -/
  | drain (entry : ℕ)
  | free

/-- How far a request has come. -/
inductive StorePc where
  | idle
  | called (r : StoreRequest)
  | created (ip : NfsIpaddr) (new : ℕ)
  | filled (ip : NfsIpaddr) (new : ℕ)
  | adding (cpu : ℕ) (ip : NfsIpaddr) (new : ℕ)
  | removing (cpu : ℕ) (ip : NfsIpaddr)
  /-- The lock is still held for writing; an entry that is not in the tree is to go. -/
  | changed (cpu : ℕ) (r : StoreRequest) (gone : Option ℕ) (ret : Bool)
  | deleting (r : StoreRequest) (gone : ℕ) (stage : DeleteStage) (ret : Bool)
  | looking (cpu : ℕ) (r : StoreRequest)
  | counting (c : Counting) (stage : CountStage)
  /-- The slots, a type and a CPU each, that are still to be added up. -/
  | summing (cpu : ℕ) (ip : NfsIpaddr) (entry : ℕ) (left : List (ℕ × ℕ))
  /-- The lock is still held for reading. -/
  | looked (cpu : ℕ) (r : StoreRequest) (ret : Bool)
  | showing (name : List Char) (entry : ℕ) (left : List (ℕ × ℕ))
  | returned (r : StoreRequest) (ret : Bool)
  | fault

/-- `snprintf(entry->name, NAME_SIZE, "%x_%x", ipcounterid++, cpu)`. -/
def entryName (ipcounterid : UInt32) (cpu : ℕ) : List Char :=
  (Nat.toDigits 16 ipcounterid.toNat ++ '_' :: Nat.toDigits 16 cpu).take 15

/-- The slots a reader of all counters visits. -/
def slots (ncpu : ℕ) (maxtype : UInt8) : List (ℕ × ℕ) :=
  (List.range maxtype.toNat).flatMap fun i => (List.range ncpu).map fun cpu => (i, cpu)

namespace Store

/-- `read_unlock_irqrestore` on a CPU. -/
def readUnlockIrqrestore (cpu : ℕ) (s : Store) : Store :=
  { s with
    iptreelock := s.iptreelock.readUnlock
    irqsOff := Function.update s.irqsOff cpu false }

/-- `write_unlock_irqrestore` on a CPU. -/
def writeUnlockIrqrestore (cpu : ℕ) (s : Store) : Store :=
  { s with
    iptreelock := s.iptreelock.writeUnlock
    irqsOff := Function.update s.irqsOff cpu false }

/-- Nothing comes of it when an allocation fails; then the file of no entry goes, because
none has an empty name. `kzalloc` does not hand out memory that is in use, and
`proc_create_data` refuses a name that is taken. -/
def create (maxtype : UInt8) (o : Outcome) (s : Store) : Option ℕ × Store :=
  match o.kzalloc with
  | none => (none, s)
  | some new =>
      if (s.entries new).isSome then (none, s)
      else if o.allocPercpu then
        let name := entryName s.ipcounterid o.cpu
        let numbered := { s with ipcounterid := s.ipcounterid + 1 }
        if o.procCreateData && (s.files name).isNone then
          (some new,
            { numbered with
              entries := Function.update s.entries new
                (some ⟨⟨NfsIpaddr.zero, fun _ => List.replicate maxtype.toNat ⟨0, 0⟩⟩, name⟩)
              files := Function.update s.files name (some new) })
        else (none, numbered)
      else (none, s)

/-- The way at an entry of the descent for an address, where the entry is allocated. -/
def steer (s : Store) (ip : NfsIpaddr) (p : ℕ) : Ordering :=
  match s.entries p with
  | some entry => steerIp ip entry.toIpCounterEntry
  | none => .eq

/-- Whether the descent for an address meets allocated entries only. -/
def descends (s : Store) (ip : NfsIpaddr) : Bool :=
  (visited (s.steer ip) s.iptree).all fun p => (s.entries p).isSome

/-- Slot `i` of a CPU in the counters of an entry. -/
def slot (s : Store) (p cpu i : ℕ) : Option NfsCounterVector :=
  (s.entries p).bind fun entry => (entry.counter cpu)[i]?

/-- One slot of an entry after a change. -/
def setSlot (s : Store) (p cpu i : ℕ) (vector : NfsCounterVector) : Store :=
  { s with
    entries := Function.update s.entries p ((s.entries p).map fun entry =>
      { entry with
        counter := Function.update entry.counter cpu ((entry.counter cpu).set i vector) }) }

end Store

variable (maxtype : UInt8) (ncpu : ℕ)

/-- The requests over one store. -/
abbrev Stores : Type :=
  Threads Store StorePc

end Linguafranca.Nfstat
