import Linguafranca.Nfstat.Counting

/-!
# Reading the counters while packets are counted

A call of `nfs_getcounter_perip` reads the counters of an address one by one: type after type,
and for each type CPU after CPU. It holds `iptreelock` for reading meanwhile. So does
`inccounter`, and packets go on being counted between two reads; entries are added and removed
under the lock for writing, and have to wait. The checks before the lock read no counter, and
the entry that the call holds a pointer to is looked up by its address here.

Next to a run we record, for every address, the packets counted since it was added and what
calls returned since it was last removed.
-/

namespace Linguafranca.Nfstat

open SearchTree Run

variable {ncpu : ℕ}

/-- A call under way: the numbers of the types it is done with, and the CPUs it has added up
for the next type. -/
structure Progress where
  ip : NfsIpaddr
  finished : List UInt64
  cpu : ℕ
  number : UInt64

/-- Whether a thread is in a call of `nfs_getcounter_perip`, and what its last one returned. -/
inductive Caller where
  | idle
  | reading (progress : Progress)
  | returned (ip : NfsIpaddr) (numbers : List UInt64)

/-- The static variables with the threads that read counters. -/
structure Serving where
  nfs : NfsState
  /-- The callers that hold `iptreelock` for reading. -/
  readers : List ℕ
  caller : ℕ → Caller

/-- The module is loaded and nobody reads. -/
def Serving.init : Serving :=
  ⟨.init, [], fun _ => .idle⟩

/-- A request, a packet that is counted, or a step of a thread that reads counters. -/
inductive ServeEvent (ncpu : ℕ) where
  | ioctl (request : NfsRequest)
  | inccounter (cpu : Fin ncpu) (ip : NfsIpaddr) (typeidx : UInt8) (bytes : UInt64)
  | enter (t : ℕ) (ip : NfsIpaddr)
  | read (t : ℕ)

/-- The command takes `iptreelock` for writing. -/
def NfsCmd.writesTree : NfsCmd → Bool
  | .addip .. => true
  | .rmvip .. => true
  | _ => false

/-- One turn of the two loops: read one counter, or go on to the next type. -/
def Progress.advance (ncpu : ℕ) (iptree : BinaryTree IpCounterEntry) (progress : Progress) :
    Progress :=
  if progress.cpu < ncpu then
    match findipentry progress.ip iptree with
    | none => progress
    | some entry =>
        { progress with
          cpu := progress.cpu + 1
          number := progress.number +
            ((entry.counter progress.cpu).getD progress.finished.length ⟨0, 0⟩).number }
  else ⟨progress.ip, progress.finished ++ [progress.number], 0, 0⟩

theorem ip_advance (iptree : BinaryTree IpCounterEntry) (progress : Progress) :
    (progress.advance ncpu iptree).ip = progress.ip := by
  simp only [Progress.advance]
  split
  · split <;> rfl
  · rfl

/-- A request that has to wait for the callers. -/
def Serving.waits (s : Serving) (request : NfsRequest) : Prop :=
  request.cmd.writesTree ∧ s.readers ≠ []

instance (s : Serving) (request : NfsRequest) : Decidable (s.waits request) :=
  inferInstanceAs (Decidable (_ ∧ _))

/-- The thread is in no call and the address has an entry. -/
def Serving.begins (s : Serving) (t : ℕ) (ip : NfsIpaddr) : Bool :=
  match s.caller t with
  | .reading _ => false
  | _ => (findipentry ip s.nfs.iptree).isSome

/-- The state after an event; a request that needs the lock waits while somebody reads. -/
def serveStep (s : Serving) : ServeEvent ncpu → Serving
  | .ioctl request =>
      if s.waits request then s else { s with nfs := (nfsIoctl ncpu request s.nfs).2 }
  | .inccounter cpu ip typeidx bytes =>
      { s with nfs.iptree := inccounter ip typeidx bytes cpu s.nfs.iptree }
  | .enter t ip =>
      if s.begins t ip then
        { s with
          readers := t :: s.readers
          caller := Function.update s.caller t (.reading ⟨ip, [], 0, 0⟩) }
      else s
  | .read t =>
      match s.caller t with
      | .reading progress =>
          if progress.finished.length < s.nfs.maxtype.toNat then
            { s with
              caller := Function.update s.caller t
                (.reading (progress.advance ncpu s.nfs.iptree)) }
          else
            { s with
              readers := s.readers.erase t
              caller := Function.update s.caller t
                (.returned progress.ip progress.finished) }
      | _ => s

/-! ## The record -/

/-- What happened so far, as far as it bears on the numbers returned. -/
structure Record where
  /-- The packets counted for an address and a type since the address was last added. -/
  counted : NfsIpaddr → ℕ → ℕ
  /-- What the calls for an address returned since it was last removed. -/
  results : NfsIpaddr → List (List UInt64)
  /-- The packets counted for the address of a caller when its call began. -/
  began : ℕ → ℕ → ℕ
  /-- What calls for that address had returned by then. -/
  earlier : ℕ → List (List UInt64)

/-- Nothing happened. -/
def Record.init : Record :=
  ⟨fun _ _ => 0, fun _ => [], fun _ _ => 0, fun _ => []⟩

/-- An address is added, and its counts start anew. -/
def Record.restart (record : Record) (ip : NfsIpaddr) : Record :=
  { record with counted := fun sought i => if sought = ip then 0 else record.counted sought i }

/-- The address is removed. -/
def Record.removed (record : Record) (ip : NfsIpaddr) : Record :=
  { record with results := fun sought => if sought = ip then [] else record.results sought }

/-- A packet is counted. -/
def Record.count (record : Record) (ip : NfsIpaddr) (i : ℕ) : Record :=
  { record with
    counted := fun sought j => record.counted sought j + if sought = ip ∧ j = i then 1 else 0 }

/-- A call begins. -/
def Record.enter (record : Record) (t : ℕ) (ip : NfsIpaddr) : Record :=
  { record with
    began := Function.update record.began t (record.counted ip)
    earlier := Function.update record.earlier t (record.results ip) }

/-- A call returns. -/
def Record.finish (record : Record) (ip : NfsIpaddr) (numbers : List UInt64) : Record :=
  { record with
    results := fun sought =>
      if sought = ip then numbers :: record.results ip else record.results sought }

/-- A command as it acts on the record. -/
def NfsCmd.onRecord (nfs : NfsState) (record : Record) : NfsCmd → Record
  | .addip ip created rebalance =>
      if (addipentry nfs.maxtype ip created rebalance nfs.iptree).1 then
        record.restart (storedIp ip)
      else record
  | .rmvip ip rebalance =>
      if (rmvipentry ip rebalance nfs.iptree).1 then record.removed ip else record
  | _ => record

/-- The record after an event. -/
def recordStep (s : Serving) (event : ServeEvent ncpu) (record : Record) : Record :=
  match event with
  | .ioctl request =>
      if s.waits request then record
      else (request.admitted s.nfs).elim record (NfsCmd.onRecord s.nfs record)
  | .inccounter _ ip typeidx _ =>
      if (findipentry ip s.nfs.iptree).isSome then record.count ip typeidx.toNat else record
  | .enter t ip => if s.begins t ip then record.enter t ip else record
  | .read t =>
      match s.caller t with
      | .reading progress =>
          if progress.finished.length < s.nfs.maxtype.toNat then record
          else record.finish progress.ip progress.finished
      | _ => record

/-- The event is the end of a call. -/
def Returns (s : Serving) (event : ServeEvent ncpu) (t : ℕ) (ip : NfsIpaddr)
    (numbers : List UInt64) : Prop :=
  event = .read t ∧ (∃ progress, s.caller t = .reading progress) ∧
    (serveStep s event).caller t = .returned ip numbers

/-- A call that returns has a number for every type, and none is below the count at its
beginning, above the count now, or below what an earlier call returned. -/
def BracketedReturn (both : Serving × Record) (event : ServeEvent ncpu) : Prop :=
  ∀ t ip numbers, Returns both.1 event t ip numbers →
    numbers.length = both.1.nfs.maxtype.toNat ∧
      ∀ i < both.1.nfs.maxtype.toNat,
        both.2.began t i ≤ (numbers.getD i 0).toNat ∧
          (numbers.getD i 0).toNat ≤ both.2.counted ip i ∧
            ∀ earlier ∈ both.2.earlier t, (earlier.getD i 0).toNat ≤ (numbers.getD i 0).toNat

/-- No counter reaches 2^64. -/
def CountsFit (both : Serving × Record) : ServeEvent ncpu → Prop
  | .inccounter _ ip typeidx _ =>
      (findipentry ip both.1.nfs.iptree).isSome → both.2.counted ip typeidx.toNat + 1 < 2 ^ 64
  | _ => True

/-- An address that is added is clear. -/
def ClearServe (both : Serving × Record) : ServeEvent ncpu → Prop
  | .ioctl request => ClearEvent both.1.nfs (.ioctl request : NfsEvent ncpu)
  | _ => True

/-- An address that is added fits its array, and the type of a packet that is counted has a
slot. -/
def SlotServe (both : Serving × Record) : ServeEvent ncpu → Prop
  | .ioctl request => ∀ ip created rebalance,
      request.admitted both.1.nfs = some (.addip ip created rebalance) → ip.len ≤ 16
  | .inccounter _ ip typeidx _ =>
      (findipentry ip both.1.nfs.iptree).isSome → typeidx < both.1.nfs.maxtype
  | _ => True

end Linguafranca.Nfstat
