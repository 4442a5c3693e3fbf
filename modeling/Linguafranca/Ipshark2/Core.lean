import Linguafranca.Ipshark2.Hook
import Linguafranca.Ipshark2.IpQueue
import Linguafranca.Support.Memory

/-!
# The device of ipshark2

`core.c` has no state word: each request changes the device set, the pool and the hooks as far
as it gets. A request of `IPS_CONFIG` is the user's memory from the address on; its fixed part
is copied twice, the second time together with as many names as `devnum` says. What the user
passes, what lies behind a buffer and the outcomes of the copies and allocations are
arguments; `copy_from_user` and `copy_to_user` give the number of bytes left.
-/

namespace Linguafranca.Ipshark2

open Ipshark (Packet)

/-- The error number `ERESTARTSYS`. -/
def erestartsys : Int := 512

/-- The static variables of the module. The counters are those in the pool while there is
one; `qptr` and `m` are NULL together. -/
structure Module where
  data : Data
  pool : Option IpQueue
  counters : Counters
  hooks : Bool

/-- The counters when the module is loaded. -/
def Counters.initial : Counters :=
  ⟨0, 0, 0, 0, 0, 0, 0⟩

/-- The module after `ips_init`. -/
def Module.initial : Module :=
  ⟨Data.initial, none, Counters.initial, false⟩

namespace Module

/-- The counters, which outlive the pool. -/
def counts (s : Module) : Counters :=
  match s.pool with
  | none => s.counters
  | some q => q.counters

/-- The counters are replaced. -/
def setCounts (counters : Counters) (s : Module) : Module :=
  match s.pool with
  | none => { s with counters := counters }
  | some q => { s with pool := some { q with counters := counters } }

/-- `ip_queue_exit`: the pool is freed, the counters stay. -/
def ipQueueExit (s : Module) : Module :=
  { s with pool := none, counters := s.counts }

end Module

/-! ## Configuring -/

/-- The head of a request, without the names behind it. -/
structure IpsConfig where
  dmaSize : UInt64
  queueSize : List IpsCpuQueueSize
  defaultQueueSize : UInt16
  waitMs : UInt16
  whiteBlack : Int32
  devnum : Int32
  devlist : ℕ → List UInt8

/-- The size of a device name. -/
def ifnamsiz : ℕ := 16

/-- The structure at the start of some memory, with the names behind its fixed part. -/
def ipsConfigAt (memory : Memory) : IpsConfig where
  dmaSize := UInt64.ofNat (memory.number 0 8)
  queueSize := (List.range 4).map fun i =>
    ⟨(UInt16.ofNat (memory.number (8 + 4 * i) 2)).toInt16,
      UInt16.ofNat (memory.number (10 + 4 * i) 2)⟩
  defaultQueueSize := UInt16.ofNat (memory.number 24 2)
  waitMs := UInt16.ofNat (memory.number 26 2)
  whiteBlack := (UInt32.ofNat (memory.number 28 4)).toInt32
  devnum := (UInt32.ofNat (memory.number 32 4)).toInt32
  devlist := fun i => memory.span (36 + ifnamsiz * i) ifnamsiz

/-- `sizeof(ips_config) + sizeof(config.devlist[0]) * config.devnum` stored in an `int`; the
first operand is the size of a function. -/
def requestSize (devnum : Int32) : Int :=
  (1 + ifnamsiz * devnum.toInt).bmod (2 ^ 32)

/-- The memory of a request and the outcomes of what `ips_config` calls. -/
structure ConfigArgs where
  user : Memory
  headerLeft : ℕ
  kmalloc : Bool
  behind : Memory
  left : ℕ
  percpu : Bool
  cpus : List CpuAlloc
  vmalloc : Bool
  elem : ℕ → IpKeyInfoWrap
  kcallocName : Bool
  kcallocHash : Bool
  kzalloc : Bool
  /-- The device set that a sort without its buffer leaves. -/
  stopped : Data
  backLeft : ℕ

namespace ConfigArgs

/-- The structure that is asked for. -/
def request (args : ConfigArgs) : IpsConfig :=
  ipsConfigAt args.user

/-- The number of bytes that `ips_config` asks for. -/
def t (args : ConfigArgs) : Int :=
  requestSize args.request.devnum

/-- `kmalloc` of a negative size, which is a huge `size_t`, has no memory to give. -/
def allocates (args : ConfigArgs) : Bool :=
  decide (0 ≤ args.t) && args.kmalloc

/-- The buffer `p` after the second copy. -/
def p (args : ConfigArgs) : IpsConfig :=
  ipsConfigAt (Memory.fill args.t.toNat args.user args.behind)

/-- `ip_queue_create` as `ips_config` calls it. -/
def create (args : ConfigArgs) (counters : Counters) : Int × Option IpQueue :=
  ipQueueCreate args.request.queueSize args.request.defaultQueueSize args.request.waitMs
    args.percpu args.cpus args.vmalloc args.elem counters

/-- Whether `__devset_create` returns memory. -/
def devsetCreated (args : ConfigArgs) : Bool :=
  (devsetCreate args.kcallocName args.kcallocHash (args.p.whiteBlack ≠ 0) args.p.devnum.toInt
    ifnamsiz Data.initial).1

/-- The offsets of `p` that `devset_init` reads: `white_black`, `devnum` and the names. -/
def devsetReads (args : ConfigArgs) : List ℕ :=
  List.range' 28 4 ++ List.range' 32 4 ++
    if args.devsetCreated then List.range' 36 (ifnamsiz * args.p.devnum.toInt.toNat) else []

end ConfigArgs

/-- What a call of `ips_config` does: the offsets of `p` it reads, the structure it copies back
and what it returns, which an oops leaves out. -/
structure ConfigResult where
  reads : List ℕ
  written : Option IpsConfig
  ret : Option Int
  state : Module

section

variable (jhash : List UInt8 → UInt32 → UInt32)

/-- `ips_config`, which undoes the earlier steps when a later one fails. -/
def ipsConfig (args : ConfigArgs) (s : Module) : ConfigResult :=
  if args.headerLeft ≠ 0 then ⟨[], none, some args.headerLeft, s⟩
  -- `ret` is still zero here
  else if !args.allocates then ⟨[], none, some 0, s⟩
  else if args.left ≠ 0 then ⟨[], none, some args.left, s⟩
  else
    let created := args.create s.counts
    if created.1 < 0 then ⟨[], none, some created.1, s.ipQueueExit⟩
    else
      let s := { s with pool := created.2 }
      let reads := args.devsetReads
      match devsetInit jhash args.kcallocName args.kcallocHash args.kzalloc
          (args.p.whiteBlack ≠ 0) args.p.devnum.toInt ifnamsiz args.p.devlist s.data with
      | none => ⟨reads, none, none, { s with data := args.stopped }⟩
      | some (err, data) =>
          let s := { s with data := data }
          if err ≠ 0 then
            ⟨reads, none, some err, { s with data := devsetExit s.data }.ipQueueExit⟩
          else
            -- the structure reaches the user's memory even where some bytes are left
            let config := { args.request with dmaSize := UInt64.ofInt created.1 }
            if args.backLeft ≠ 0 then
              ⟨reads, some config, some args.backLeft,
                { s with data := devsetExit s.data }.ipQueueExit⟩
            else ⟨reads, some config, some 0, { s with hooks := true }⟩

end

/-! ## Fetching -/

/-- `ip_queue_shall_wakeup`: more than half a delivery was put. -/
def ipQueueShallWakeup (s : Module) : Bool :=
  s.counts.puttimes.toNat > ipsIdxArraySize / 2

/-- The number of puts since the last fetch is reset. -/
def clearPuttimes (s : Module) : Module :=
  s.setCounts { s.counts with puttimes := 0 }

/-- The wait ends with what is left of the time when the condition holds, else with the end of
the time or with a signal. -/
def ipQueueWait (remaining : ℕ) (interrupted : Bool) (s : Module) : Int × Module :=
  if ipQueueShallWakeup s then (max 1 remaining, clearPuttimes s)
  else if interrupted then (-erestartsys, s)
  else (0, s)

/-- `ip_queue_has_data`: whether there were puts, which are then forgotten. -/
def ipQueueHasData (s : Module) : Bool × Module :=
  if s.counts.puttimes > 0 then (true, clearPuttimes s) else (false, s)

/-- Whether the request moves indices, what it returns and the module. A move without a pool
is left out of the module. -/
def ipsFetch (remaining : ℕ) (interrupted : Bool) (s : Module) : Bool × Int × Module :=
  let waited := ipQueueWait remaining interrupted s
  let moved := fun s : Module => { s with pool := s.pool.map ipQueueMove2dma }
  if waited.1 = 0 then
    let has := ipQueueHasData waited.2
    if has.1 then (true, waited.1, moved has.2) else (false, -1, has.2)
  else if waited.1 > 0 then (true, waited.1, moved waited.2)
  else (false, waited.1, waited.2)

/-! ## Giving back -/

/-- The array in the copy on the stack; from `ips_idx_array_size` on it is what lies behind. -/
structure FreememArgs where
  left : ℕ
  idxNum : UInt16
  idxArray : ℕ → UInt16

/-- The positions that `ip_queue_recycle` goes through. -/
def FreememArgs.positions (args : FreememArgs) : List ℕ :=
  List.range args.idxNum.toNat

/-- The indices at the positions of the list. -/
def FreememArgs.idlist (args : FreememArgs) : List ℕ :=
  args.positions.map fun i => (args.idxArray i).toNat

/-- The positions and the elements that are accessed, what is returned and the module. -/
def ipsFreemem (args : FreememArgs) (s : Module) : (List ℕ × List ℕ) × Int × Module :=
  if args.left ≠ 0 then (([], []), args.left, s)
  else
    ((args.positions, args.idlist), 0,
      { s with pool := s.pool.map fun q => (ipQueueRecycle args.idlist q).2 })

/-! ## Packets -/

/-- A packet reaches the hooks while they are registered; a put without a pool returns. -/
def arrive (jhash : List UInt8 → UInt32 → UInt32) (p : Packet) (s : Module) : Module :=
  if s.hooks then
    match packetInfo jhash p s.data with
    | none => s
    | some info => { s with pool := s.pool.map (ipQueuePut p.cpu info) }
  else s

/-! ## Requests in any order -/

/-- A request that passes the checks of `ips_ioctl`, or a packet. -/
inductive ModuleEvent where
  | config (args : ConfigArgs)
  | fetch (remaining : ℕ) (interrupted : Bool)
  | freemem (args : FreememArgs)
  | packet (p : Packet)

/-- The module after an event. -/
def moduleStep (jhash : List UInt8 → UInt32 → UInt32) (s : Module) : ModuleEvent → Module
  | .config args => (ipsConfig jhash args s).state
  | .fetch remaining interrupted => (ipsFetch remaining interrupted s).2.2
  | .freemem args => (ipsFreemem args s).2.2
  | .packet p => arrive jhash p s

end Linguafranca.Ipshark2
