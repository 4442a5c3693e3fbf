import Linguafranca.Ipshark.Core
import Linguafranca.Ipshark.Hook
import Linguafranca.Support.Interleaving

/-!
# The hooks and the client of ipshark in memory

`devset.c`, `ip_queue.c`, `hook.c` and `core.c` with their memory, one atomic step at a time.
Any number of packets pass the hooks, each in a thread of its own, while one client opens
the device, sets the names, fetches and releases; the client is thread 0. The buckets of the
device table are lists of pointers, which the hooks walk without a lock while `devset_add`
pushes new nodes in front.

`nf_unregister_hook` takes a hook out of the list and waits until no packet is in it any
more; so the state counts the packets in each hook. A put has its CPU for itself from
`local_bh_disable` on. The calls of the fifos are atomic; the counters of packets are not,
they are read and then written. Memory that an allocation hands out is an argument of the
step, and a thread that uses memory which is not allocated ends in `fault`. What the client
asks for is kept in the arguments of `Core`; there `waited` is what `ip_queue_wait` returns.
-/

namespace Linguafranca.Ipshark

open Run Interleaving

/-- A `struct dev_entry` with the pointer to the next one. -/
structure DevNode where
  entry : DevEntry
  next : Option ℕ

/-- The memory of the module while packets and the client use it; pointers are numbers. -/
structure Capture where
  devState : DevState
  devHashtable : Option ℕ
  /-- The allocated tables, with the first node of each bucket. -/
  tables : ℕ → Option (ℕ → Option ℕ)
  nodes : ℕ → Option DevNode
  whiteBlack : Int
  ipFifo : Option ℕ
  /-- The allocated queues, with the fifo of each CPU. -/
  fifos : ℕ → Option (List CpuFifo)
  unQueuedPkts : ℕ
  putPkts : ℕ
  getPkts : ℕ
  /-- How many of the six hooks are registered. -/
  hooks : ℕ
  /-- How many packets are in a hook. -/
  running : ℕ → ℕ
  /-- The CPUs on which a packet is being put. -/
  putting : ℕ → Bool

/-- How far a packet has come in its hook. A lookup keeps the device and those after it. -/
inductive HookTask where
  | arrived
  | ignoring (left : List NetDevice)
  /-- `devset_ignore` with the head of the bucket, before it reads `white_black`. -/
  | gating (dev : NetDevice) (left : List NetDevice) (table : Option ℕ)
  | heading (dev : NetDevice) (left : List NetDevice) (table : Option ℕ)
  | walking (dev : NetDevice) (left : List NetDevice) (pos : Option ℕ)
  | deciding (dev : NetDevice) (left : List NetDevice) (found : Bool)
  | filling
  | entering (info : IpKeyInfo)
  | disabling (info : IpKeyInfo)
  | queueing (info : IpKeyInfo) (fifo : Option ℕ)
  /-- `un_queued_pkts++` or `put_pkts++`. -/
  | counting (put : Bool) (fifo : Option ℕ)
  | counted (put : Bool) (fifo : Option ℕ) (pkts : ℕ)
  | alarming (fifo : Option ℕ)
  | leaving
  | returning

/-- How far the client has come. The lists of names are those still to be added. -/
inductive CaptureTask where
  | closed
  | initTable (vmalloc : List Bool)
  | initQueue (vmalloc : List Bool)
  | registering (hook : ℕ)
  | ready
  | configuring (args : SetArgs)
  | naming (names : List Devname)
  | seeking (name : Devname) (rest : List Devname) (pos : Option ℕ)
  | allocating (name : Devname) (rest : List Devname)
  | linking (name : Devname) (rest : List Devname) (newnode : ℕ)
  | publishing (name : Devname) (rest : List Devname) (newnode : ℕ)
  | fetching (args : FetchArgs)
  | moving (args : FetchArgs) (cpu : ℕ) (copied : List IpKeyInfo) (infonum : ℕ)
  | moved (args : FetchArgs) (copied : List IpKeyInfo)
  | copying (args : FetchArgs) (copied : List IpKeyInfo)
  /-- Before the `set` at the end of a request. -/
  | restoring (new : DevState)
  | unregistering (hook : ℕ)
  | synchronizing (hook : ℕ)
  | exitQueue
  /-- `devset_exit` at a bucket. -/
  | clearing (bucket : ℕ)
  | freeing (bucket : ℕ) (pos : ℕ)
  | forgetting

/-- What a thread does: it rests, has a packet in a hook, is the client, or has faulted. -/
inductive CapturePc where
  | resting
  | hook (p : Packet) (task : HookTask)
  | client (task : CaptureTask)
  | fault

/-- What a thread does next, with the memory an allocation hands out. -/
inductive CaptureAct where
  | packet (p : Packet)
  | open (vmalloc : List Bool)
  | setNamelist (args : SetArgs)
  | fetch (args : FetchArgs)
  | release
  | next (pointer : Option ℕ)

/-- The place of the hook in `hooks[6]`; a packet has a device on one side at least. -/
def Packet.hooknum (p : Packet) : Option ℕ :=
  match p.inDev, p.outDev with
  | none, none => none
  | some _, none => some (if p.ipv6 then 3 else 0)
  | none, some _ => some (if p.ipv6 then 4 else 1)
  | some _, some _ => some (if p.ipv6 then 5 else 2)

/-- The record of a packet that is not ignored. -/
def Packet.filled (p : Packet) : Option IpKeyInfo :=
  p.header.bind fun h =>
    let info := infoOut p.outDev (infoIn p.inDev emptyInfo)
    (infoPorts p.skb
      { info with protocol := h.protocol, s := h.s, d := h.d, version := h.version }).map
        fun info => { info with totallen := p.skb.len.toUInt16 }

/-- The test of `get_entry_in_hlist`. -/
def DevEntry.isFor (pos : DevEntry) (name : List UInt8) (hash : UInt32) : Bool :=
  hash = pos.hash ∧ strncmpEq ifnamsiz pos.n.toList name

/-- The memory that an allocation hands out was free. -/
def allocated {Item : Type*} (memory : ℕ → Option Item) (pointer : Option ℕ) : Option ℕ :=
  pointer.filter fun p => (memory p).isNone

namespace Capture

/-- The queue of one CPU after a change. -/
def setFifo (c : Capture) (q cpu : ℕ) (cpus : List CpuFifo) (fifo : CpuFifo) : Capture :=
  { c with fifos := Function.update c.fifos q (some (cpus.set cpu fifo)) }

/-- A CPU starts or ends a put. -/
def setPutting (c : Capture) (cpu : ℕ) (on : Bool) : Capture :=
  { c with putting := Function.update c.putting cpu on }

/-- The fifos of the CPUs behind a pointer. -/
def cpuFifos (c : Capture) (fifo : Option ℕ) : Option (ℕ × List CpuFifo) :=
  fifo.bind fun q => (c.fifos q).map fun cpus => (q, cpus)

/-- The table behind `dev_hashtable`. -/
def table (c : Capture) : Option (ℕ × (ℕ → Option ℕ)) :=
  c.devHashtable.bind fun t => (c.tables t).map fun heads => (t, heads)

/-- The first node of a bucket after a change. -/
def setHead (c : Capture) (t : ℕ) (heads : ℕ → Option ℕ) (bucket : ℕ) (first : Option ℕ) :
    Capture :=
  { c with tables := Function.update c.tables t (some (Function.update heads bucket first)) }

/-- A node is filled in or freed. -/
def setNode (c : Capture) (p : ℕ) (node : Option DevNode) : Capture :=
  { c with nodes := Function.update c.nodes p node }

/-- The queue is freed and its counters are reset. -/
def freeQueue (c : Capture) (q : ℕ) : Capture :=
  { c with
    fifos := Function.update c.fifos q none
    ipFifo := none
    unQueuedPkts := 0
    putPkts := 0
    getPkts := 0 }

end Capture

section

variable (jhash : List UInt8 → UInt32 → UInt32) (ncpu : ℕ)

/-- The next step of a packet in its hook. -/
def hookNext (c : Capture) (p : Packet) (task : HookTask) : Capture × CapturePc :=
  match task with
  | .arrived => (c, .hook p (if p.header.isSome then .ignoring p.devices else .returning))
  | .ignoring [] => (c, .hook p .returning)
  | .ignoring (dev :: left) => (c, .hook p (.gating dev left c.devHashtable))
  | .gating dev left table =>
      (c, .hook p (if c.whiteBlack = ipsNone then .ignoring left else .heading dev left table))
  | .heading dev left table =>
      match table.bind c.tables with
      | none => (c, .fault)
      | some heads =>
          (c, .hook p (.walking dev left (heads (smallJhash (devHash jhash dev.name.toList)))))
  | .walking dev left none => (c, .hook p (.deciding dev left false))
  | .walking dev left (some pos) =>
      match c.nodes pos with
      | none => (c, .fault)
      | some node =>
          if node.entry.isFor dev.name.toList (devHash jhash dev.name.toList) then
            (c, .hook p (.deciding dev left true))
          else (c, .hook p (.walking dev left node.next))
  | .deciding _ left found =>
      let ignored : Bool := if found then c.whiteBlack = ipsBlack else c.whiteBlack = ipsWhite
      (c, .hook p (if ignored then .ignoring left else .filling))
  | .filling =>
      match p.filled with
      | none => (c, .hook p .returning)
      | some info => (c, .hook p (.entering info))
  | .entering info =>
      (c, .hook p (if c.ipFifo.isSome then .disabling info else .returning))
  | .disabling info =>
      if c.putting p.cpu then (c, .hook p task)
      else (c.setPutting p.cpu true, .hook p (.queueing info c.ipFifo))
  | .queueing info fifo =>
      match c.cpuFifos fifo with
      | none => (c, .fault)
      | some (q, cpus) =>
          match cpus[p.cpu]? with
          | none => (c, .fault)
          | some f =>
              let put := f.fifo.put info
              (c.setFifo q p.cpu cpus { f with fifo := put.2 }, .hook p (.counting put.1 fifo))
  | .counting put fifo =>
      (c, .hook p (.counted put fifo (if put then c.putPkts else c.unQueuedPkts)))
  | .counted put fifo pkts =>
      (if put then { c with putPkts := pkts + 1 } else { c with unQueuedPkts := pkts + 1 },
        .hook p (.alarming fifo))
  | .alarming fifo =>
      match c.cpuFifos fifo with
      | none => (c, .fault)
      | some (q, cpus) =>
          match cpus[p.cpu]? with
          | none => (c, .fault)
          | some f => (c.setFifo q p.cpu cpus (updateAlarm f), .hook p .leaving)
  | .leaving => (c.setPutting p.cpu false, .hook p .returning)
  | .returning =>
      match p.hooknum with
      | none => (c, .fault)
      | some hook =>
          ({ c with running := Function.update c.running hook (c.running hook - 1) }, .resting)

/-- What stops `set_namelist` before it calls `devset_add`, and `devset_add` at its start. -/
def SetArgs.Refused (args : SetArgs) (c : Capture) : Prop :=
  toInt args.copyList ≠ 0 ∨ args.devnum ≤ 0 ∨ args.accessOk = false ∨ args.vmalloc = false ∨
    toInt args.copyNames ≠ 0 ∨ c.devHashtable = none ∨ c.whiteBlack ≠ ipsNone ∨
    args.whiteBlack = ipsNone

instance (args : SetArgs) (c : Capture) : Decidable (args.Refused c) :=
  inferInstanceAs (Decidable (_ ∨ _ ∨ _ ∨ _ ∨ _ ∨ _ ∨ _ ∨ _))

/-- What stops `fetch_info` before it takes anything out of the queue. -/
def FetchArgs.Refused (args : FetchArgs) : Prop :=
  toInt args.copySet ≠ 0 ∨ args.buf = false ∨ args.n = 0 ∨ 1024 < args.n ∨ args.waited ≤ 0 ∨
    args.accessOk = false

instance (args : FetchArgs) : Decidable args.Refused :=
  inferInstanceAs (Decidable (_ ∨ _ ∨ _ ∨ _ ∨ _ ∨ _))

/-- The bytes in memory from a name on. -/
def namesFrom (name : Devname) (rest : List Devname) : List UInt8 :=
  (name :: rest).flatMap Bytes.toList

/-- The bucket of a name that is to be added. -/
def bucketOf (name : Devname) (rest : List Devname) : ℕ :=
  smallJhash (devHash jhash (namesFrom name rest))

/-- The next step of the client. -/
def captureNext (c : Capture) (pointer : Option ℕ) (task : CaptureTask) : Capture × CapturePc :=
  match task with
  | .closed | .ready => (c, .client task)
  | .initTable vmalloc =>
      match allocated c.tables pointer with
      | none => ({ c with devHashtable := none }, .client .closed)
      | some t =>
          ({ c with
              devHashtable := some t
              tables := Function.update c.tables t (some fun _ => none) },
            .client (.initQueue vmalloc))
  | .initQueue vmalloc =>
      match allocated c.fifos pointer with
      | none => ({ c with ipFifo := none }, .client (.clearing 0))
      | some q =>
          if vmalloc.all id then
            ({ c with
                ipFifo := some q
                fifos := Function.update c.fifos q
                  (some (List.replicate ncpu ⟨Kfifo.alloc ipFifoSize, false⟩)) },
              .client (.registering 0))
          else (c.freeQueue q, .client (.clearing 0))
  | .registering hook =>
      if hook < 6 then ({ c with hooks := hook + 1 }, .client (.registering (hook + 1)))
      else (c, .client .ready)
  | .configuring args =>
      if args.Refused c then (c, .client (.restoring .opened))
      else
        ({ c with whiteBlack := args.whiteBlack },
          .client (.naming ((List.range args.devnum.toNat).map args.names)))
  | .naming [] => (c, .client .ready)
  | .naming (name :: rest) =>
      match c.table with
      | none => (c, .fault)
      | some (_, heads) => (c, .client (.seeking name rest (heads (bucketOf jhash name rest))))
  | .seeking name rest none => (c, .client (.allocating name rest))
  | .seeking name rest (some pos) =>
      match c.nodes pos with
      | none => (c, .fault)
      | some node =>
          let memory := namesFrom name rest
          if node.entry.isFor memory (devHash jhash memory) then (c, .client (.naming rest))
          else (c, .client (.seeking name rest node.next))
  | .allocating name rest =>
      match allocated c.nodes pointer with
      | none => (c, .client (.naming rest))
      | some p =>
          (c.setNode p (some ⟨⟨name, devHash jhash (namesFrom name rest)⟩, none⟩),
            .client (.linking name rest p))
  | .linking name rest newnode =>
      match c.table, c.nodes newnode with
      | some (_, heads), some node =>
          (c.setNode newnode (some { node with next := heads (bucketOf jhash name rest) }),
            .client (.publishing name rest newnode))
      | _, _ => (c, .fault)
  | .publishing name rest newnode =>
      match c.table with
      | none => (c, .fault)
      | some (t, heads) =>
          (c.setHead t heads (bucketOf jhash name rest) (some newnode), .client (.naming rest))
  | .fetching args =>
      if args.Refused then (c, .client (.restoring .nameSet))
      else if c.ipFifo = none then (c, .client (.copying args []))
      else (c, .client (.moving args 0 [] args.n.toNat))
  | .moving args cpu copied infonum =>
      match c.cpuFifos c.ipFifo with
      | none => (c, .fault)
      | some (q, cpus) =>
          match cpus[cpu]? with
          | none => (c, .client (.moved args copied))
          | some f =>
              if f.fifo.items = [] then (c, .client (.moving args (cpu + 1) copied infonum))
              else
                let out := f.fifo.out infonum
                let copied := copied ++ out.1
                if 1024 < copied.length then (c, .fault)
                else
                  let c := c.setFifo q cpu cpus { f with fifo := out.2 }
                  let infonum := (args.n - UInt32.ofNat copied.length).toNat
                  if infonum = 0 then (c, .client (.moved args copied))
                  else (c, .client (.moving args (cpu + 1) copied infonum))
  | .moved args copied =>
      ({ c with getPkts := c.getPkts + copied.length }, .client (.copying args copied))
  | .copying _ _ => (c, .client (.restoring .nameSet))
  | .restoring new => ({ c with devState := new }, .client .ready)
  | .unregistering hook => ({ c with hooks := hook }, .client (.synchronizing hook))
  | .synchronizing hook =>
      if c.running hook = 0 then
        (c, .client (if hook = 0 then .exitQueue else .unregistering (hook - 1)))
      else (c, .client task)
  | .exitQueue =>
      match c.ipFifo with
      | none => (c, .client (.clearing 0))
      | some q =>
          match c.fifos q with
          | none => (c, .fault)
          | some _ => (c.freeQueue q, .client (.clearing 0))
  | .clearing bucket =>
      match c.table with
      | none => (c, .fault)
      | some (t, heads) =>
          if bucket < 2 ^ devnameHashBits then
            match heads bucket with
            | none => (c, .client (.clearing (bucket + 1)))
            | some pos => (c, .client (.freeing bucket pos))
          else ({ c with tables := Function.update c.tables t none }, .client .forgetting)
  | .freeing bucket pos =>
      match c.table, c.nodes pos with
      | some (t, heads), some node =>
          ((c.setNode pos none).setHead t heads bucket node.next, .client (.clearing bucket))
      | _, _ => (c, .fault)
  | .forgetting => ({ c with devHashtable := none, whiteBlack := ipsNone }, .client .closed)

/-- A packet comes to its hook on a possible CPU while the hook is registered. -/
def captureAct (c : Capture) (pc : CapturePc) (act : CaptureAct) : Capture × CapturePc :=
  match act, pc with
  | .packet p, .resting =>
      match p.hooknum with
      | none => (c, .resting)
      | some hook =>
          if hook < c.hooks ∧ p.cpu < ncpu then
            ({ c with running := Function.update c.running hook (c.running hook + 1) },
              .hook p .arrived)
          else (c, .resting)
  | .open vmalloc, .client .closed =>
      if c.devState = .close then ({ c with devState := .opened }, .client (.initTable vmalloc))
      else (c, .client .closed)
  | .setNamelist args, .client .ready =>
      if c.devState = .opened then ({ c with devState := .nameSet }, .client (.configuring args))
      else (c, .client .ready)
  | .fetch args, .client .ready =>
      if c.devState = .nameSet then ({ c with devState := .run }, .client (.fetching args))
      else (c, .client .ready)
  | .release, .client .ready =>
      ({ c with devState := .close }, .client (.unregistering 5))
  | .next _, .hook p task => hookNext jhash c p task
  | .next pointer, .client task => captureNext jhash ncpu c pointer task
  | _, pc => (c, pc)

/-- The packets and the client over the memory of the module. -/
abbrev Captures : Type :=
  Threads Capture CapturePc

/-- One step of one of the threads. -/
abbrev captureStep : Captures → ℕ × CaptureAct → Captures :=
  step (captureAct jhash ncpu)

end

/-- The module after it was loaded. -/
def loadedCapture : Captures where
  shared :=
    { devState := .close
      devHashtable := none
      tables := fun _ => none
      nodes := fun _ => none
      whiteBlack := ipsNone
      ipFifo := none
      fifos := fun _ => none
      unQueuedPkts := 0
      putPkts := 0
      getPkts := 0
      hooks := 0
      running := fun _ => 0
      putting := fun _ => false }
  pc := fun t => if t = 0 then .client .closed else .resting

end Linguafranca.Ipshark
