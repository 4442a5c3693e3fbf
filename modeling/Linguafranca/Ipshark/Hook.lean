import Linguafranca.Ipshark.Devset
import Linguafranca.Ipshark.IpQueue

/-!
# The hooks of ipshark

`hook.c` makes a record of every packet that the device filter does not ignore and puts it
into the queue of the CPU; the verdict is always `NF_ACCEPT`. A header is absent where the
hook sees a NULL pointer, and ports and addresses are in network order. A hook that reads a
NULL table has no result.
-/

namespace Linguafranca.Ipshark

/-- The protocol number of TCP. -/
def ipprotoTcp : UInt8 := 6

/-- The protocol number of UDP. -/
def ipprotoUdp : UInt8 := 17

/-- The protocol number of SCTP. -/
def ipprotoSctp : UInt8 := 132

/-- A network device, of which the hooks read the name. -/
structure NetDevice where
  name : Devname

/-- The fields of an IPv4 header that the hooks read. -/
structure Iphdr where
  version : BitVec 4
  protocol : UInt8
  saddr : Bytes 4
  daddr : Bytes 4

/-- The fields of an IPv6 header that the hooks read. -/
structure Ipv6hdr where
  version : BitVec 4
  nexthdr : UInt8
  saddr : Bytes 16
  daddr : Bytes 16

/-- The two ports at the start of a TCP, UDP or SCTP header. -/
structure PortHdr where
  source : UInt16
  dest : UInt16

/-- The headers of a packet, each absent where the accessor returns NULL, and its length. -/
structure SkBuff where
  ipHdr : Option Iphdr
  ipv6Hdr : Option Ipv6hdr
  tcpHdr : Option PortHdr
  udpHdr : Option PortHdr
  sctpHdr : Option PortHdr
  len : UInt32

/-- `{ .totallen = 0 }`. -/
def emptyInfo : IpKeyInfo :=
  ⟨Bytes.zero 16, Bytes.zero 16, Bytes.zero 16, Bytes.zero 16, 0, 0, 0, 0, 0, 0⟩

section

variable (jhash : List UInt8 → UInt32 → UInt32)

/-- A NULL device is ignored. -/
def ignoreDevice (dev : Option NetDevice) (set : Devset) : Option Bool :=
  match dev with
  | none => some true
  | some dev => devsetIgnore jhash dev.name.toList set

/-- Both devices of a packet are to be ignored; `none` is an oops. -/
def ignore (inDev outDev : Option NetDevice) (set : Devset) : Option Bool :=
  match ignoreDevice jhash inDev set with
  | none => none
  | some false => some false
  | some true => ignoreDevice jhash outDev set

/-- The receiving device and its direction bit are noted. -/
def infoIn (dev : Option NetDevice) (info : IpKeyInfo) : IpKeyInfo :=
  match dev with
  | none => info
  | some dev => { info with direct := info.direct + 1, inDev := dev.name }

/-- The sending device and its direction bit are noted. -/
def infoOut (dev : Option NetDevice) (info : IpKeyInfo) : IpKeyInfo :=
  match dev with
  | none => info
  | some dev => { info with direct := info.direct + 2, outDev := dev.name }

/-- The ports of a header are noted. -/
def withPorts (info : IpKeyInfo) (ports : PortHdr) : IpKeyInfo :=
  { info with sport := ports.source, dport := ports.dest }

/-- The switch on the protocol. -/
def infoPorts (skb : SkBuff) (info : IpKeyInfo) : Option IpKeyInfo :=
  if info.protocol = ipprotoTcp then skb.tcpHdr.map (withPorts info)
  else if info.protocol = ipprotoUdp then skb.udpHdr.map (withPorts info)
  else if info.protocol = ipprotoSctp then skb.sctpHdr.map (withPorts info)
  else some info

/-- The record, if any, of a packet with a header of the right version. -/
def hookInfo (version : BitVec 4) (protocol : UInt8) (s d : Bytes 16) (skb : SkBuff)
    (inDev outDev : Option NetDevice) (set : Devset) : Option (Option IpKeyInfo) :=
  match ignore jhash inDev outDev set with
  | none => none
  | some true => some none
  | some false =>
      let info := infoOut outDev (infoIn inDev emptyInfo)
      match infoPorts skb
        { info with protocol := protocol, s := s, d := d, version := version } with
      | none => some none
      | some info => some (some { info with totallen := skb.len.toUInt16 })

/-- The record that `hookfn` makes of a packet, if it makes one; an outer `none` is an oops. -/
def hookfnInfo (skb : SkBuff) (inDev outDev : Option NetDevice) (set : Devset) :
    Option (Option IpKeyInfo) :=
  match skb.ipHdr with
  | none => some none
  | some hdr =>
      if hdr.version ≠ 4 then some none
      else
        hookInfo jhash 4 hdr.protocol ((Bytes.zero 16).memcpy hdr.saddr 4)
          ((Bytes.zero 16).memcpy hdr.daddr 4) skb inDev outDev set

/-- The record that `hookfn6` makes of a packet, if it makes one; an outer `none` is an oops. -/
def hookfn6Info (skb : SkBuff) (inDev outDev : Option NetDevice) (set : Devset) :
    Option (Option IpKeyInfo) :=
  match skb.ipv6Hdr with
  | none => some none
  | some hdr =>
      if hdr.version ≠ 6 then some none
      else
        hookInfo jhash 6 hdr.nexthdr ((Bytes.zero 16).memcpy hdr.saddr 16)
          ((Bytes.zero 16).memcpy hdr.daddr 16) skb inDev outDev set

/-- The fields of an IP header that a record keeps. -/
structure HeaderFields where
  version : BitVec 4
  protocol : UInt8
  s : Bytes 16
  d : Bytes 16

/-- The four bytes of an IPv4 address and zeros. -/
def padded (addr : Bytes 4) : Bytes 16 :=
  ⟨addr.toList ++ List.replicate 12 0, by simp [addr.2]⟩

/-- A packet as one of the two hooks receives it on a CPU. -/
structure Packet where
  ipv6 : Bool
  cpu : ℕ
  skb : SkBuff
  inDev : Option NetDevice
  outDev : Option NetDevice

namespace Packet

/-- The record of a packet, by its family. -/
def info (p : Packet) (set : Devset) : Option (Option IpKeyInfo) :=
  if p.ipv6 then hookfn6Info jhash p.skb p.inDev p.outDev set
  else hookfnInfo jhash p.skb p.inDev p.outDev set

/-- The record that reaches the queue, and the queue. -/
def hook (p : Packet) (set : Devset) (q : IpQueue) : Option (Option IpKeyInfo × IpQueue) :=
  match p.info jhash set with
  | none => none
  | some none => some (none, q)
  | some (some info) =>
      let put := ipQueuePut p.cpu info q
      some (if put.1 then some info else none, put.2)

/-- The devices of a packet, the receiving one first. -/
def devices (p : Packet) : List NetDevice :=
  p.inDev.toList ++ p.outDev.toList

/-- What is in the header, if it is one of the right version. -/
def header (p : Packet) : Option HeaderFields :=
  if p.ipv6 then
    p.skb.ipv6Hdr.bind fun hdr =>
      if hdr.version = 6 then some ⟨6, hdr.nexthdr, hdr.saddr, hdr.daddr⟩ else none
  else
    p.skb.ipHdr.bind fun hdr =>
      if hdr.version = 4 then some ⟨4, hdr.protocol, padded hdr.saddr, padded hdr.daddr⟩ else none

/-- The protocol in a header of the right version. -/
def protocol (p : Packet) : Option UInt8 :=
  if p.ipv6 then
    p.skb.ipv6Hdr.bind fun hdr => if hdr.version = 6 then some hdr.nexthdr else none
  else p.skb.ipHdr.bind fun hdr => if hdr.version = 4 then some hdr.protocol else none

/-- The transport header that a protocol makes the hook read is there. -/
def HasTransport (p : Packet) (protocol : UInt8) : Prop :=
  (protocol = ipprotoTcp → p.skb.tcpHdr.isSome) ∧ (protocol = ipprotoUdp → p.skb.udpHdr.isSome) ∧
    (protocol = ipprotoSctp → p.skb.sctpHdr.isSome)

/-- Every header that the hook reads is there. -/
def Complete (p : Packet) : Prop :=
  ∃ protocol, p.protocol = some protocol ∧ p.HasTransport protocol

/-- The hook queues a record. -/
def Captured (p : Packet) (set : Devset) (q : IpQueue) : Prop :=
  ∃ info q', p.hook jhash set q = some (some info, q')

end Packet

/-- The fifo of a CPU is not full. -/
def HasRoom (cpu : ℕ) (q : IpQueue) : Prop :=
  ∃ cpus c, q.ipFifo = some cpus ∧ cpus[cpu]? = some c ∧ c.fifo.items.length < c.fifo.size

variable {jhash} {skb : SkBuff} {inDev outDev : Option NetDevice} {set : Devset} {q : IpQueue}
  {p : Packet}

theorem ipQueuePut_iff_room (cpu : ℕ) (info : IpKeyInfo) (q : IpQueue) :
    (ipQueuePut cpu info q).1 = true ↔ HasRoom cpu q := by
  simp only [ipQueuePut, HasRoom]
  cases q.ipFifo with
  | none => simp
  | some cpus =>
      cases present : cpus[cpu]? with
      | none => simp [present]
      | some c =>
          by_cases room : c.fifo.items.length < c.fifo.size
          · simp [Kfifo.put, room, present]
          · simp [Kfifo.put, room, present]

theorem infoPorts_isSome_iff (info : IpKeyInfo) :
    (infoPorts p.skb info).isSome ↔ p.HasTransport info.protocol := by
  simp only [infoPorts, Packet.HasTransport]
  by_cases tcp : info.protocol = ipprotoTcp
  · simp [tcp, ipprotoTcp, ipprotoUdp, ipprotoSctp]
  · by_cases udp : info.protocol = ipprotoUdp
    · simp [udp, ipprotoTcp, ipprotoUdp, ipprotoSctp]
    · by_cases sctp : info.protocol = ipprotoSctp
      · simp [sctp, ipprotoTcp, ipprotoUdp, ipprotoSctp]
      · simp [tcp, udp, sctp]

theorem hookInfo_eq_some_iff {version : BitVec 4} {protocol : UInt8} {s d : Bytes 16} :
    (∃ info, hookInfo jhash version protocol s d p.skb inDev outDev set = some (some info)) ↔
      ignore jhash inDev outDev set = some false ∧ p.HasTransport protocol := by
  simp only [hookInfo]
  cases ignore jhash inDev outDev set with
  | none => simp
  | some ignored =>
      cases ignored with
      | true => simp
      | false =>
          let filled : IpKeyInfo :=
            { infoOut outDev (infoIn inDev emptyInfo) with
              protocol := protocol, s := s, d := d, version := version }
          rw [← show filled.protocol = protocol from rfl, ← infoPorts_isSome_iff filled]
          cases infoPorts p.skb filled with
          | none => simp
          | some info => simp

theorem memcpy_padded (addr : Bytes 4) : (Bytes.zero 16).memcpy addr 4 = padded addr := by
  apply Bytes.ext
  simp [Bytes.memcpy, Bytes.zero, padded, addr.2]

theorem memcpy_whole (addr : Bytes 16) : (Bytes.zero 16).memcpy addr 16 = addr := by
  apply Bytes.ext
  simp [Bytes.memcpy, Bytes.zero, addr.2]

/-- Both hooks do the same with what is in the header. -/
theorem Packet.info_eq (p : Packet) (set : Devset) :
    p.info jhash set =
      match p.header with
      | none => some none
      | some h => hookInfo jhash h.version h.protocol h.s h.d p.skb p.inDev p.outDev set := by
  simp only [Packet.info, Packet.header, hookfn6Info, hookfnInfo]
  by_cases six : p.ipv6
  · simp only [if_pos six]
    cases p.skb.ipv6Hdr with
    | none => rfl
    | some hdr =>
        by_cases version : hdr.version = 6
        · simp only [Option.bind_some, if_pos version, if_neg (not_not.mpr version), memcpy_whole]
        · simp only [Option.bind_some, if_pos version, if_neg version]
  · simp only [if_neg six]
    cases p.skb.ipHdr with
    | none => rfl
    | some hdr =>
        by_cases version : hdr.version = 4
        · simp only [Option.bind_some, if_pos version, if_neg (not_not.mpr version), memcpy_padded]
        · simp only [Option.bind_some, if_pos version, if_neg version]

theorem Packet.protocol_eq (p : Packet) : p.protocol = p.header.map HeaderFields.protocol := by
  simp only [Packet.protocol, Packet.header]
  by_cases six : p.ipv6
  · simp only [if_pos six]
    cases p.skb.ipv6Hdr with
    | none => rfl
    | some hdr => by_cases version : hdr.version = 6 <;> simp [version]
  · simp only [if_neg six]
    cases p.skb.ipHdr with
    | none => rfl
    | some hdr => by_cases version : hdr.version = 4 <;> simp [version]

theorem Packet.info_eq_some_iff :
    (∃ info, p.info jhash set = some (some info)) ↔
      ignore jhash p.inDev p.outDev set = some false ∧ p.Complete := by
  simp only [Packet.info_eq, Packet.Complete, Packet.protocol_eq]
  cases p.header with
  | none => simp
  | some h => simp [hookInfo_eq_some_iff]

theorem Packet.captured_iff :
    p.Captured jhash set q ↔
      (ignore jhash p.inDev p.outDev set = some false ∧ p.Complete) ∧ HasRoom p.cpu q := by
  rw [← Packet.info_eq_some_iff]
  simp only [Packet.Captured, Packet.hook]
  cases p.info jhash set with
  | none => simp
  | some made =>
      cases made with
      | none => simp
      | some info =>
          rw [← ipQueuePut_iff_room p.cpu info q]
          by_cases put : (ipQueuePut p.cpu info q).1
          · simp [put]
          · simp [put]

/-- Where every lookup has a result, a packet passes for one device that is not ignored. -/
theorem Packet.ignore_eq_false_iff
    (decided : ∀ dev ∈ p.devices, (devsetIgnore jhash dev.name.toList set).isSome) :
    ignore jhash p.inDev p.outDev set = some false ↔
      ∃ dev ∈ p.devices, devsetIgnore jhash dev.name.toList set = some false := by
  simp only [Packet.devices] at decided ⊢
  cases inside : p.inDev with
  | none => cases outside : p.outDev <;> simp [ignore, ignoreDevice]
  | some dev =>
      have first := decided dev (by simp [inside])
      rcases Option.isSome_iff_exists.mp first with ⟨ignored, found⟩
      cases ignored <;> cases outside : p.outDev <;> simp [ignore, ignoreDevice, found]

end

end Linguafranca.Ipshark
