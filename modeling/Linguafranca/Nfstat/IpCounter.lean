import Linguafranca.Nfstat.Nfs
import Linguafranca.Support.SearchTree
import Mathlib.Logic.Function.Basic

/-!
# The counter tree

The addresses of `ip_counter.c` stand in a red-black tree ordered by `memcmp` over the
twenty bytes of `struct nfs_ipaddr`. An entry holds a copy of its address and, for each
CPU, an array of counter vectors with one slot for each rule type. `addipentry` fills the
copy from a zeroed entry, tag and address bytes only, but descends with the address as the
user passed it.

The outcome of the allocations and the shape chosen by the kernel's rebalancing are
arguments; `/proc` names are left out.
-/

namespace Linguafranca.Nfstat

open SearchTree

/-- A counter entry: its address and the slots of each CPU. -/
structure IpCounterEntry where
  ip : NfsIpaddr
  /-- The slots of one CPU, `per_cpu_ptr(entry->counter, cpu)`. -/
  counter : ℕ → List NfsCounterVector

/-- The way the descent for an address takes at an entry: `ret > 0` leads to the left. -/
def steerIp (ip : NfsIpaddr) (entry : IpCounterEntry) : Ordering :=
  cmp 0 (Bytes.memcmp entry.ip.toBytes ip.toBytes)

/-- `findipentry`: the descent for an address. -/
def findipentry (ip : NfsIpaddr) (iptree : BinaryTree IpCounterEntry) : Option IpCounterEntry :=
  find (steerIp ip) iptree

/-- The address a new entry holds: the tag and as many address bytes as the tag says,
copied into a zeroed structure. A tag above 16 makes the code copy past the end of the array;
this function stops there, and `addipentryBytes` says which bytes the code writes. -/
def storedIp (ip : NfsIpaddr) : NfsIpaddr :=
  ⟨ip.len, Bytes.zero 3, (Bytes.zero 16).memcpy ip.addr ip.len.toNat⟩

/-- The entry of `create` with the address filled in; `__alloc_percpu` zeroes the slots. -/
def newIpEntry (maxtype : UInt8) (ip : NfsIpaddr) : IpCounterEntry :=
  ⟨storedIp ip, fun _ => List.replicate maxtype.toNat ⟨0, 0⟩⟩

/-- `addipentry`: a new entry is linked where the descent for the address ends, unless it stops at
an entry. -/
def addipentry (maxtype : UInt8) (ip : NfsIpaddr) (created : Bool)
    (rebalance : Rebalance IpCounterEntry) (iptree : BinaryTree IpCounterEntry) :
    Bool × BinaryTree IpCounterEntry :=
  if ip.len = 0 then (false, iptree)
  else if created then
    match link (steerIp ip) (newIpEntry maxtype ip) iptree with
    | none => (false, iptree)
    | some linked => (true, rebalance.apply linked)
  else (false, iptree)

/-- `rmvipentry`: the entry at which the descent stops is erased. -/
def rmvipentry (ip : NfsIpaddr) (rebalance : Rebalance IpCounterEntry)
    (iptree : BinaryTree IpCounterEntry) : Bool × BinaryTree IpCounterEntry :=
  match findipentry ip iptree with
  | none => (false, iptree)
  | some _ => (true, rebalance.apply (erase (steerIp ip) iptree))

/-- `vector[typeidx].number++` and `vector[typeidx].bytes += bytes` on one CPU. For a type that
has no slot the code counts in the memory behind the vectors; this function counts nothing. -/
def IpCounterEntry.increment (entry : IpCounterEntry) (cpu : ℕ) (typeidx : UInt8)
    (bytes : UInt64) : IpCounterEntry :=
  { entry with
    counter := Function.update entry.counter cpu
      ((entry.counter cpu).modify typeidx.toNat fun vector =>
        ⟨vector.number + 1, vector.bytes + bytes⟩) }

/-- `inccounter` on a CPU: the entry of the address is counted at. -/
def inccounter (ip : NfsIpaddr) (typeidx : UInt8) (bytes : UInt64) (cpu : ℕ)
    (iptree : BinaryTree IpCounterEntry) : BinaryTree IpCounterEntry :=
  match findipentry ip iptree with
  | none => iptree
  | some _ => modify (steerIp ip) (fun entry => entry.increment cpu typeidx bytes) iptree

/-- The sum over the possible CPUs of slot `i`. -/
def sumCounter (ncpu : ℕ) (entry : IpCounterEntry) (i : ℕ) : NfsCounterVector :=
  (List.range ncpu).foldl (fun v cpu =>
    let c := (entry.counter cpu).getD i ⟨0, 0⟩
    ⟨v.number + c.number, v.bytes + c.bytes⟩) ⟨0, 0⟩

/-- How the call ends. -/
inductive GetcounterResult where
  /-- `memset` of some bytes through the NULL that `vmalloc` returned. -/
  | fault
  | refused
  /-- The vectors at the start of the buffer, and whether it reached the user. -/
  | done (vectors : List NfsCounterVector) (copied : Bool)
deriving DecidableEq

/-- What the handler learns from the call. `getcounterPerip` has its steps and the bytes of the
reply, and `getcounterPerip_refines` reads this off them. -/
def nfsGetcounterPerip (ncpu : ℕ) (maxtype : UInt8) (iptree : BinaryTree IpCounterEntry)
    (ip : NfsIpaddr) (len : ℕ) (allocated copied : Bool) : GetcounterResult :=
  -- sizeof(struct nfs_counter_vector) is 16
  if len < 16 * maxtype.toNat then .refused
  else if allocated then
    match findipentry ip iptree with
    | none => .refused
    | some entry => .done ((List.range maxtype.toNat).map (sumCounter ncpu entry)) copied
  else if 0 < len then .fault else .refused

/-! ## The tree as one sorted by key -/

theorem steerIp_eq_cmp_key (ip : NfsIpaddr) (entry : IpCounterEntry) :
    steerIp ip entry = cmp ip.key entry.ip.key := by
  have order := Bytes.cmp_memcmp entry.ip.toBytes ip.toBytes (by simp)
  rw [steerIp, ← cmp_swap, order, cmp_swap]
  rfl

theorem steerIp_eq (ip : NfsIpaddr) :
    steerIp ip = fun entry => cmp ip.key entry.ip.key :=
  funext (steerIp_eq_cmp_key ip)

@[simp]
theorem increment_ip (entry : IpCounterEntry) (cpu : ℕ) (typeidx : UInt8) (bytes : UInt64) :
    (entry.increment cpu typeidx bytes).ip = entry.ip :=
  rfl

@[simp]
theorem newIpEntry_ip (maxtype : UInt8) (ip : NfsIpaddr) :
    (newIpEntry maxtype ip).ip = storedIp ip :=
  rfl

/-- Normalising an address never raises its key. -/
theorem key_storedIp_le (ip : NfsIpaddr) : (storedIp ip).key ≤ ip.key :=
  Bytes.value_le_of_forall₂ (List.Forall₂.cons le_rfl (List.rel_append
    (Bytes.forall₂_zero_le ip.padding) (Bytes.forall₂_memcpy_zero_le ip.addr ip.len.toNat)))

end Linguafranca.Nfstat
