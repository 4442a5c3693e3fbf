import Linguafranca.Ipshark.Hook

/-!
# What a record says of its packet

Both hooks put one record into the queue for a packet with a device that is not ignored, none
for any other, and accept the packet on every path. The record describes the packet; only its
length, a `__u16`, is too narrow for `skb->len`.
-/

namespace Linguafranca.Ipshark

/-- The verdict `NF_ACCEPT`. -/
def nfAccept : ℕ := 1

namespace Packet

/-- The ports in front of the payload of a protocol that has some. -/
def transport (p : Packet) (protocol : UInt8) : Option PortHdr :=
  if protocol = ipprotoTcp then p.skb.tcpHdr
  else if protocol = ipprotoUdp then p.skb.udpHdr
  else if protocol = ipprotoSctp then p.skb.sctpHdr
  else none

section

variable (jhash : List UInt8 → UInt32 → UInt32)

/-- The records that the hook puts and its verdict, which every return has in common. -/
def run (p : Packet) (set : Devset) : Option (List IpKeyInfo × ℕ) :=
  (p.info jhash set).map fun info => (info.toList, nfAccept)

/-- A device that is not ignored. -/
def Noticed (p : Packet) (set : Devset) : Prop :=
  ∃ dev ∈ p.devices, devsetIgnore jhash dev.name.toList set = some false

end

end Packet

/-- What a record says beside the header and the length. -/
structure Labels (p : Packet) (info : IpKeyInfo) : Prop where
  direct : info.direct.toNat =
    (if p.inDev.isSome then 1 else 0) + (if p.outDev.isSome then 2 else 0)
  inName : info.inDev = (p.inDev.map NetDevice.name).getD (Bytes.zero 16)
  outName : info.outDev = (p.outDev.map NetDevice.name).getD (Bytes.zero 16)
  ports : ⟨info.sport, info.dport⟩ = (p.transport info.protocol).getD ⟨0, 0⟩

/-- The record has the addresses, ports, protocol, version and length of the packet, its devices and
its direction. -/
structure Describes (p : Packet) (info : IpKeyInfo) : Prop extends Labels p info where
  header : p.header = some ⟨info.version, info.protocol, info.s, info.d⟩
  totallen : info.totallen.toNat = p.skb.len.toNat

/-- The packet is accepted, and what is put for it is right. -/
structure HooksRight (jhash : List UInt8 → UInt32 → UInt32) (p : Packet) (set : Devset) :
    Prop where
  accepts : ∃ puts, p.run jhash set = some (puts, nfAccept)
  noticed : p.Noticed jhash set →
    ∃ info verdict, p.run jhash set = some ([info], verdict) ∧ Describes p info
  unnoticed : ¬p.Noticed jhash set → ∀ puts verdict, p.run jhash set = some (puts, verdict) →
    puts = []

/-- A lookup in the set finds a table or needs none. -/
def Devset.Ready (set : Devset) : Prop :=
  set.whiteBlack = ipsNone ∨ set.devHashtable.isSome

variable {jhash : List UInt8 → UInt32 → UInt32} {p : Packet} {set : Devset} {info : IpKeyInfo}

theorem devsetIgnore_isSome_iff (devname : List UInt8) :
    (devsetIgnore jhash devname set).isSome ↔ set.Ready := by
  simp only [devsetIgnore, Devset.Ready]
  by_cases unset : set.whiteBlack = ipsNone
  · simp [unset]
  · cases set.devHashtable with
    | none => simp [unset]
    | some table =>
        simp only [unset, if_false, Option.isSome_some, or_true, iff_true]
        split <;> rfl

/-! ## The record -/

theorem infoPorts_eq {base filled : IpKeyInfo} (ports : infoPorts p.skb base = some filled)
    (sport : base.sport = 0) (dport : base.dport = 0) :
    filled = withPorts base ((p.transport base.protocol).getD ⟨0, 0⟩) := by
  have same : base = withPorts base ⟨0, 0⟩ := by
    cases base
    simp_all [withPorts]
  have taken : ∀ hdr : Option PortHdr, hdr.map (withPorts base) = some filled →
      filled = withPorts base (hdr.getD ⟨0, 0⟩) := by
    intro hdr found
    rcases Option.map_eq_some_iff.mp found with ⟨found, rfl, rfl⟩
    rfl
  simp only [infoPorts] at ports
  simp only [Packet.transport]
  split at ports
  · next tcp =>
      rw [if_pos tcp]
      exact taken _ ports
  · next tcp =>
      rw [if_neg tcp]
      split at ports
      · next udp =>
          rw [if_pos udp]
          exact taken _ ports
      · next udp =>
          rw [if_neg udp]
          split at ports
          · next sctp =>
              rw [if_pos sctp]
              exact taken _ ports
          · next sctp =>
              rw [if_neg sctp]
              exact (Option.some.inj ports).symm.trans same

/-- A record has the fields of the header that it is made with, and its length modulo 2^16. -/
theorem hookInfo_fields {version : BitVec 4} {protocol : UInt8} {s d : Bytes 16}
    (made : hookInfo jhash version protocol s d p.skb p.inDev p.outDev set = some (some info)) :
    Labels p info ∧ info.version = version ∧ info.protocol = protocol ∧ info.s = s ∧ info.d = d ∧
      info.totallen.toNat = p.skb.len.toNat % 2 ^ 16 := by
  simp only [hookInfo] at made
  split at made
  · simp at made
  · simp at made
  · split at made
    · simp at made
    · next filled ports =>
        have noPorts : (infoOut p.outDev (infoIn p.inDev emptyInfo)).sport = 0 ∧
            (infoOut p.outDev (infoIn p.inDev emptyInfo)).dport = 0 := by
          cases p.inDev <;> cases p.outDev <;> exact ⟨rfl, rfl⟩
        have whole := infoPorts_eq ports noPorts.1 noPorts.2
        obtain rfl := Option.some.inj (Option.some.inj made)
        subst whole
        refine ⟨⟨?_, ?_, ?_, rfl⟩, rfl, rfl, rfl, rfl, by simp⟩
        all_goals cases p.inDev <;> cases p.outDev <;> rfl

theorem info_fields (made : p.info jhash set = some (some info)) :
    Labels p info ∧ p.header = some ⟨info.version, info.protocol, info.s, info.d⟩ ∧
      info.totallen.toNat = p.skb.len.toNat % 2 ^ 16 := by
  rw [Packet.info_eq] at made
  cases header : p.header with
  | none => simp [header] at made
  | some h =>
      simp only [header] at made
      rcases hookInfo_fields made with ⟨labels, version, protocol, s, d, totallen⟩
      refine ⟨labels, ?_, totallen⟩
      rw [version, protocol, s, d]

theorem describes_iff (made : p.info jhash set = some (some info)) :
    Describes p info ↔ p.skb.len.toNat < 65536 := by
  rcases info_fields made with ⟨labels, header, totallen⟩
  constructor
  · intro describes
    have same := describes.totallen
    have bound := info.totallen.toNat_lt
    omega
  · intro short
    refine ⟨labels, header, ?_⟩
    omega

/-! ## The hooks -/

theorem ignore_isSome_iff :
    (ignore jhash p.inDev p.outDev set).isSome ↔ p.devices = [] ∨ set.Ready := by
  have lookup := @devsetIgnore_isSome_iff jhash set
  cases inside : p.inDev with
  | none =>
      cases outside : p.outDev with
      | none => simp [ignore, ignoreDevice, Packet.devices, inside, outside]
      | some dev => simp [ignore, ignoreDevice, Packet.devices, inside, outside, lookup]
  | some dev =>
      simp only [ignore, ignoreDevice, Packet.devices, inside, Option.toList_some,
        List.cons_append, reduceCtorEq, false_or]
      rw [← lookup dev.name.toList]
      cases first : devsetIgnore jhash dev.name.toList set with
      | none => simp
      | some ignored =>
          have ready : set.Ready := (lookup dev.name.toList).mp (by simp [first])
          cases ignored with
          | false => simp
          | true => cases p.outDev <;> simp [lookup, ready]

theorem noticed_iff (decided : p.devices = [] ∨ set.Ready) :
    p.Noticed jhash set ↔ ignore jhash p.inDev p.outDev set = some false := by
  symm
  apply Packet.ignore_eq_false_iff
  intro dev member
  rcases decided with none | ready
  · simp [none] at member
  · exact (devsetIgnore_isSome_iff dev.name.toList).mpr ready

/-- A packet that is not noticed makes no record. -/
theorem info_of_not_noticed (complete : p.Complete)
    (ignored : ignore jhash p.inDev p.outDev set ≠ some false) :
    p.info jhash set = (ignore jhash p.inDev p.outDev set).map fun _ => none := by
  rcases complete with ⟨protocol, present, -⟩
  rw [Packet.protocol_eq] at present
  rcases Option.map_eq_some_iff.mp present with ⟨h, header, -⟩
  rw [Packet.info_eq]
  simp only [header, hookInfo]
  cases result : ignore jhash p.inDev p.outDev set with
  | none => rfl
  | some ignores =>
      cases ignores with
      | true => rfl
      | false => exact absurd result ignored

/-- For a packet with all its headers the hook is right if the table is there, provided that
the length of a packet which is recorded fits into sixteen bits. -/
theorem hooksRight_iff (jhash : List UInt8 → UInt32 → UInt32) (p : Packet) (set : Devset)
    (complete : p.Complete) :
    HooksRight jhash p set ↔
      (p.devices = [] ∨ set.Ready) ∧ (p.Noticed jhash set → p.skb.len.toNat < 65536) := by
  have ready := @ignore_isSome_iff jhash p set
  cases result : ignore jhash p.inDev p.outDev set with
  | none =>
      have oops := @info_of_not_noticed jhash p set complete (by simp [result])
      simp only [result, Option.isSome_none, Bool.false_eq_true, false_iff] at ready
      simp only [ready, false_and, iff_false]
      intro right
      rcases right.accepts with ⟨puts, ran⟩
      simp [Packet.run, oops, result] at ran
  | some ignores =>
      simp only [result, Option.isSome_some, true_iff] at ready
      have noticed := @noticed_iff jhash p set ready
      simp only [ready, true_and]
      cases ignores with
      | true =>
          have ran := @info_of_not_noticed jhash p set complete (by simp [result])
          have unnoticed : ¬p.Noticed jhash set := by simp [noticed, result]
          simp only [unnoticed, false_implies, iff_true]
          refine ⟨⟨[], by simp [Packet.run, ran, result]⟩, fun seen => absurd seen unnoticed, ?_⟩
          intro _ puts verdict same
          simp only [Packet.run, ran, result, Option.map_some, Option.toList_none,
            Option.some.injEq, Prod.mk.injEq] at same
          exact same.1.symm
      | false =>
          rcases (@Packet.info_eq_some_iff jhash set p).mpr ⟨result, complete⟩ with ⟨info, made⟩
          have ran : p.run jhash set = some ([info], nfAccept) := by simp [Packet.run, made]
          have seen : p.Noticed jhash set := noticed.mpr result
          simp only [seen, true_implies]
          rw [← describes_iff made]
          constructor
          · intro right
            rcases right.noticed seen with ⟨other, verdict, same, describes⟩
            simp only [ran, Option.some.injEq, Prod.mk.injEq, List.cons.injEq, and_true] at same
            rwa [same.1]
          · intro describes
            exact ⟨⟨[info], ran⟩, fun _ => ⟨info, nfAccept, ran, describes⟩,
              fun unseen => absurd seen unseen⟩

/-! ## A packet to a device that no list names -/

/-- A hash function for the examples. -/
def noHash : List UInt8 → UInt32 → UInt32 :=
  fun _ _ => 0

/-- A black list without names. -/
def allNoticed : Devset :=
  ⟨some fun _ => [], ipsBlack⟩

/-- An ICMPv6 packet of some length that goes out by `eth0`. -/
def pingPacket (len : UInt32) : Packet where
  ipv6 := true
  cpu := 0
  skb := ⟨none, some ⟨6, 58, Bytes.zero 16, Bytes.zero 16⟩, none, none, none, len⟩
  inDev := none
  outDev := some ⟨eth0⟩

theorem complete_pingPacket (len : UInt32) : (pingPacket len).Complete := by
  refine ⟨58, rfl, ?_, ?_, ?_⟩
  all_goals
    intro same
    exact absurd same (by decide)

theorem hooksRight_for_pingPacket : HooksRight noHash (pingPacket 104) allNoticed := by
  have right := hooksRight_iff noHash (pingPacket 104) allNoticed (complete_pingPacket 104)
  apply right.mpr
  refine ⟨Or.inr (Or.inr rfl), ?_⟩
  intro _
  decide

/-- 65535 bytes of payload behind the header. -/
theorem longPacket_not_hooksRight :
    ¬∀ (jhash : List UInt8 → UInt32 → UInt32) (p : Packet) (set : Devset), p.Complete →
      set.Ready → HooksRight jhash p set := by
  intro right
  have hook := right noHash (pingPacket 65575) allNoticed (complete_pingPacket 65575) (Or.inr rfl)
  have seen : (pingPacket 65575).Noticed noHash allNoticed :=
    ⟨⟨eth0⟩, List.mem_singleton_self _, rfl⟩
  rcases hook.noticed seen with ⟨info, verdict, ran, describes⟩
  have made : (pingPacket 65575).info noHash allNoticed = some (some info) := by
    simp only [Packet.run, Option.map_eq_some_iff, Prod.mk.injEq] at ran
    rcases ran with ⟨made, present, puts, -⟩
    cases made with
    | none => simp at puts
    | some other =>
        simp only [Option.toList_some, List.cons.injEq, and_true] at puts
        rw [present, puts]
  exact absurd ((describes_iff made).mp describes) (by decide)

end Linguafranca.Ipshark
