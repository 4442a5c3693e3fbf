import Linguafranca.Nfstat.IpCounter
import Linguafranca.Nfstat.IpRule
import Linguafranca.Support.Run

/-!
# The hooks and the device of nfstat

`nfs_hook.c` classifies every packet with the rule tree and counts it at its local
address; the device's `ioctl` edits both trees. One `ioctl` call and one packet on one
CPU are each one step of the module (`nfsStep`), since both trees are locked.

Headers are read as the hooks read them: `hdr` and `trans` are absent when the hook sees a
NULL pointer, `hasIn` and `hasOut` say whether the devices it was handed are non-NULL, and
ports are in network order. What the kernel decides outside the module is part of the
event: whether the request may be copied, whether memory was found, and how the trees were
rebalanced.
-/

namespace Linguafranca.Nfstat

open SearchTree

/-- The protocol number of ICMP. -/
abbrev ipprotoIcmp : UInt8 := 1

/-- The protocol number of IGMP. -/
abbrev ipprotoIgmp : UInt8 := 2

/-- The protocol number of TCP. -/
abbrev ipprotoTcp : UInt8 := 6

/-- The protocol number of UDP. -/
abbrev ipprotoUdp : UInt8 := 17

/-- The protocol number of ICMPv6. -/
abbrev ipprotoIcmpv6 : UInt8 := 58

/-- The protocol number of SCTP. -/
abbrev ipprotoSctp : UInt8 := 132

/-- The fields of an IPv4 header that the hook reads. -/
structure Iphdr where
  version : UInt8
  protocol : UInt8
  saddr : Bytes 4
  daddr : Bytes 4

/-- The fields of an IPv6 header that the hook reads. -/
structure Ipv6hdr where
  version : UInt8
  nexthdr : UInt8
  saddr : Bytes 16
  daddr : Bytes 16

/-- The two ports at the start of a TCP, UDP or SCTP header. -/
structure PortHdr where
  source : UInt16
  dest : UInt16

/-- A packet: its header and its ports, where there are any, and its length. -/
structure SkBuff (Header : Type) where
  hdr : Option Header
  trans : Option PortHdr
  len : UInt32

/-- A port in host order. -/
def ntohs (port : UInt16) : UInt16 :=
  (port <<< 8) ||| (port >>> 8)

/-- The direction by the devices of the packet: in, out, or both for a forwarded packet. -/
def hookDir (hasIn hasOut : Bool) : UInt8 :=
  (if hasIn then 1 else 0) + (if hasOut then 2 else 0)

/-- The address structure both hooks fill: a tag and the bytes of a header field. -/
def hookAddr {n : ℕ} (len : UInt8) (field : Bytes n) : NfsIpaddr :=
  ⟨len, Bytes.zero 3, (Bytes.zero 16).memcpy field n⟩

theorem wellFormed_hookAddr_four (field : Bytes 4) : (hookAddr 4 field).WellFormed where
  family := Or.inl rfl
  padding := rfl
  unused := fun _ => Bytes.eq_zero_of_mem_drop_memcpy field (by omega)

theorem wellFormed_hookAddr_six (field : Bytes 16) : (hookAddr 6 field).WellFormed where
  family := Or.inr rfl
  padding := rfl
  unused := by
    intro ipv4
    simp [hookAddr] at ipv4

/-- The search key with the ports read from a transport header. -/
def hookPorts (rule : NfsRule) (ports : PortHdr) : NfsRule :=
  { rule with
    lport := ntohs (if rule.dir = nfsOut then ports.source else ports.dest)
    rport := ntohs (if rule.dir = nfsOut then ports.dest else ports.source) }

/-- The switch on the protocol: take the ports, insist on a header, or do neither. -/
def hookTransport (takesPorts needsHeader : Bool) (rule : NfsRule) (trans : Option PortHdr) :
    Option NfsRule :=
  if takesPorts then trans.map (hookPorts rule)
  else if needsHeader then trans.map fun _ => rule
  else some rule

/-- The key `hookfn` passes to `get_typeidx`, unless it accepts the packet before. -/
def hookfnRule (skb : SkBuff Iphdr) (hasIn hasOut : Bool) : Option NfsRule :=
  match skb.hdr with
  | none => none
  | some hdr =>
      if hdr.version ≠ 4 then none
      else
        let rule : NfsRule :=
          { lip := hookAddr 4 (if hasIn then hdr.daddr else hdr.saddr)
            rip := hookAddr 4 (if hasIn then hdr.saddr else hdr.daddr)
            lport := 0
            rport := 0
            protocol := hdr.protocol
            dir := hookDir hasIn hasOut
            typeidx := 0 }
        hookTransport
          (hdr.protocol = ipprotoTcp ∨ hdr.protocol = ipprotoUdp ∨ hdr.protocol = ipprotoSctp)
          (hdr.protocol = ipprotoIcmp ∨ hdr.protocol = ipprotoIgmp) rule skb.trans

/-- The key `hookfn6` passes to `get_typeidx`, unless it accepts the packet before. -/
def hookfn6Rule (skb : SkBuff Ipv6hdr) (hasIn hasOut : Bool) : Option NfsRule :=
  match skb.hdr with
  | none => none
  | some hdr =>
      if hdr.version ≠ 6 then none
      else
        let rule : NfsRule :=
          { lip := hookAddr 6 (if hasIn then hdr.daddr else hdr.saddr)
            rip := hookAddr 6 (if hasIn then hdr.saddr else hdr.daddr)
            lport := 0
            rport := 0
            protocol := hdr.nexthdr
            dir := hookDir hasIn hasOut
            typeidx := 0 }
        hookTransport
          (hdr.nexthdr = ipprotoTcp ∨ hdr.nexthdr = ipprotoUdp ∨ hdr.nexthdr = ipprotoSctp)
          (hdr.nexthdr = ipprotoIcmpv6) rule skb.trans

theorem hookTransport_eq_some {takesPorts needsHeader : Bool} {rule key : NfsRule}
    {trans : Option PortHdr}
    (built : hookTransport takesPorts needsHeader rule trans = some key) :
    key.lip = rule.lip ∧ key.rip = rule.rip ∧ key.protocol = rule.protocol ∧
      key.dir = rule.dir := by
  simp only [hookTransport] at built
  split at built
  · rcases Option.map_eq_some_iff.mp built with ⟨ports, -, rfl⟩
    exact ⟨rfl, rfl, rfl, rfl⟩
  · split at built
    · rcases Option.map_eq_some_iff.mp built with ⟨ports, -, rfl⟩
      exact ⟨rfl, rfl, rfl, rfl⟩
    · obtain rfl := Option.some.inj built
      exact ⟨rfl, rfl, rfl, rfl⟩

/-- What the key of an IPv4 packet holds besides its ports. -/
theorem hookfnRule_eq_some {skb : SkBuff Iphdr} {hasIn hasOut : Bool} {key : NfsRule}
    (built : hookfnRule skb hasIn hasOut = some key) :
    ∃ hdr, skb.hdr = some hdr ∧ hdr.version = 4 ∧
      key.lip = hookAddr 4 (if hasIn then hdr.daddr else hdr.saddr) ∧
      key.rip = hookAddr 4 (if hasIn then hdr.saddr else hdr.daddr) ∧
      key.protocol = hdr.protocol ∧ key.dir = hookDir hasIn hasOut := by
  simp only [hookfnRule] at built
  split at built
  · simp at built
  · next hdr present =>
      split at built
      · simp at built
      · next version => exact ⟨hdr, present, not_not.mp version, hookTransport_eq_some built⟩

theorem hookfn6Rule_eq_some {skb : SkBuff Ipv6hdr} {hasIn hasOut : Bool} {key : NfsRule}
    (built : hookfn6Rule skb hasIn hasOut = some key) :
    ∃ hdr, skb.hdr = some hdr ∧ hdr.version = 6 ∧
      key.lip = hookAddr 6 (if hasIn then hdr.daddr else hdr.saddr) ∧
      key.rip = hookAddr 6 (if hasIn then hdr.saddr else hdr.daddr) ∧
      key.protocol = hdr.nexthdr ∧ key.dir = hookDir hasIn hasOut := by
  simp only [hookfn6Rule] at built
  split at built
  · simp at built
  · next hdr present =>
      split at built
      · simp at built
      · next version => exact ⟨hdr, present, not_not.mp version, hookTransport_eq_some built⟩

/-- The static variables of the module. -/
structure NfsState where
  maxtype : UInt8
  iptree : BinaryTree IpCounterEntry
  ruletree : BinaryTree NfsRule

/-- The module as loaded. -/
def NfsState.init : NfsState :=
  ⟨0, .nil, .nil⟩

/-- The end of both hooks: classify the packet and count it. -/
def countPacket (cpu : ℕ) (rule : NfsRule) (len : UInt32) (state : NfsState) : NfsState :=
  let idx := getTypeidx state.ruletree rule
  if idx < 0 ∨ idx > 255 then state
  else
    { state with
      iptree := inccounter rule.lip (UInt8.ofNat idx.toNat) len.toUInt64 cpu state.iptree }

/-- `hookfn` on a CPU: a packet with a key is counted. -/
def hookfn (cpu : ℕ) (skb : SkBuff Iphdr) (hasIn hasOut : Bool) (state : NfsState) : NfsState :=
  match hookfnRule skb hasIn hasOut with
  | none => state
  | some rule => countPacket cpu rule skb.len state

/-- `hookfn6` on a CPU: a packet with a key is counted. -/
def hookfn6 (cpu : ℕ) (skb : SkBuff Ipv6hdr) (hasIn hasOut : Bool) (state : NfsState) : NfsState :=
  match hookfn6Rule skb hasIn hasOut with
  | none => state
  | some rule => countPacket cpu rule skb.len state

/-! ## The device -/

/-- The commands of `ioctl`, with the outcomes of the allocations and copies they make. -/
inductive NfsCmd where
  | init (maxtype : UInt8)
  | addip (ip : NfsIpaddr) (created : Bool) (rebalance : Rebalance IpCounterEntry)
  | rmvip (ip : NfsIpaddr) (rebalance : Rebalance IpCounterEntry)
  | addrule (rule : NfsRule) (created : Bool) (rebalance : Rebalance NfsRule)
  | rmvrule (rule : NfsRule) (rebalance : Rebalance NfsRule)
  | getcounter (ip : NfsIpaddr) (len : ℕ) (allocated copied : Bool)
  | gettypemax
  | other

/-- One call of `nfs_ioctl`: the checks on its command word and argument, the outcome of
the copy between user and kernel, and the command. -/
structure NfsRequest where
  magicOk : Bool
  accessOk : Bool
  copyOk : Bool
  cmd : NfsCmd

/-- The error number `ENOTTY`. -/
def enotty : Int := 25

/-- The error number `EFAULT`. -/
def efault : Int := 14

/-- The error number `EIO`. -/
def eio : Int := 5

/-- The error number `EINVAL`. -/
def einval : Int := 22

/-- `nfsinit`: a positive number of types is stored. -/
def nfsinit (max : UInt8) (state : NfsState) : NfsState :=
  if max > 0 then { state with maxtype := max } else state

/-- The switch of `nfs_ioctl`; `none` when the kernel faults. -/
def nfsSwitch (ncpu : ℕ) (copyOk : Bool) (cmd : NfsCmd) (state : NfsState) :
    Option Int × NfsState :=
  let status (ret : Bool) : Option Int := some (if ret then 0 else -eio)
  match cmd with
  | .init maxtype =>
      if state.maxtype ≠ 0 then (some (-einval), state)
      else if copyOk then (some 0, nfsinit maxtype state)
      else (some (-efault), state)
  | .addip ip created rebalance =>
      if copyOk then
        let result := addipentry state.maxtype ip created rebalance state.iptree
        (status result.1, { state with iptree := result.2 })
      else (some (-efault), state)
  | .rmvip ip rebalance =>
      if copyOk then
        let result := rmvipentry ip rebalance state.iptree
        (status result.1, { state with iptree := result.2 })
      else (some (-efault), state)
  | .addrule rule created rebalance =>
      if copyOk then
        let result := addnfsrule rule created rebalance state.ruletree
        (status result.1, { state with ruletree := result.2 })
      else (some (-efault), state)
  | .rmvrule rule rebalance =>
      if copyOk then
        let result := rmvnfsrule rule rebalance state.ruletree
        (status result.1, { state with ruletree := result.2 })
      else (some (-efault), state)
  | .getcounter ip len allocated copied =>
      if copyOk then
        match nfsGetcounterPerip ncpu state.maxtype state.iptree ip len allocated copied with
        | .fault => (none, state)
        | .refused => (status false, state)
        | .done _ copied => (status copied, state)
      else (some (-efault), state)
  | .gettypemax => (some (if copyOk then 0 else -efault), state)
  | .other => (some (-efault), state)

/-- Every command but `NFS_CMD_INIT` needs the number of types to be set. -/
def NfsCmd.needsInit : NfsCmd → Bool
  | .init _ => false
  | _ => true

/-- `nfs_ioctl`: the checks in front of the switch; `none` is an oops. -/
def nfsIoctl (ncpu : ℕ) (request : NfsRequest) (state : NfsState) : Option Int × NfsState :=
  if !request.magicOk then (some (-enotty), state)
  else if !request.accessOk then (some (-efault), state)
  else if request.cmd.needsInit ∧ state.maxtype = 0 then (some (-eio), state)
  else nfsSwitch ncpu request.copyOk request.cmd state

/-- What happens to the module: a request, or a packet at a hook on one of the CPUs. -/
inductive NfsEvent (ncpu : ℕ) where
  | ioctl (request : NfsRequest)
  | packet (cpu : Fin ncpu) (skb : SkBuff Iphdr) (hasIn hasOut : Bool)
  | packet6 (cpu : Fin ncpu) (skb : SkBuff Ipv6hdr) (hasIn hasOut : Bool)

/-- A request that passes every check before its handler. -/
def NfsEvent.request {ncpu : ℕ} (cmd : NfsCmd) : NfsEvent ncpu :=
  .ioctl ⟨true, true, true, cmd⟩

/-- The static variables after an event. -/
def nfsStep {ncpu : ℕ} (state : NfsState) : NfsEvent ncpu → NfsState
  | .ioctl request => (nfsIoctl ncpu request state).2
  | .packet cpu skb hasIn hasOut => hookfn cpu skb hasIn hasOut state
  | .packet6 cpu skb hasIn hasOut => hookfn6 cpu skb hasIn hasOut state

end Linguafranca.Nfstat
