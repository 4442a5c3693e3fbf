import Linguafranca.Nfstat.Mirror

/-!
# The protocol of an IPv6 packet

`struct nfs_rule` asks for the protocol of the payload in IPv4 terms: a hop-by-hop options
header is skipped and ICMPv6 counts as ICMP. `hookfn6` passes on the field `nexthdr` of the
fixed header as it is.
-/

namespace Linguafranca.Nfstat

/-- The protocol number of the hop-by-hop options. -/
abbrev ipprotoHopopts : UInt8 := 0

/-- A hop-by-hop options header: the protocol of what follows, and as many bytes as its length
field says, in units of eight without the first. -/
structure HopOpts where
  nexthdr : UInt8
  hdrlen : UInt8
  options : List UInt8
  size : options.length = 8 * hdrlen.toNat + 6

/-- An IPv6 packet, with the bytes of the payload at which ports stand. -/
structure Ipv6Packet where
  hdr : Ipv6hdr
  hopopts : Option HopOpts
  payload : PortHdr
  len : UInt32
  version : hdr.version = 6
  announced : hdr.nexthdr = ipprotoHopopts ↔ hopopts.isSome

namespace Ipv6Packet

/-- The protocol of the payload. -/
def protocol (packet : Ipv6Packet) : UInt8 :=
  match packet.hopopts with
  | none => packet.hdr.nexthdr
  | some hopopts => hopopts.nexthdr

/-- The packet at the hook. Where its transport header lies when there is an options header is
the kernel's choice. -/
def skb (packet : Ipv6Packet) (behind : HopOpts → PortHdr) : SkBuff Ipv6hdr :=
  ⟨some packet.hdr, some (packet.hopopts.elim packet.payload behind), packet.len⟩

/-- The same payload without the options header. -/
def bare (packet : Ipv6Packet) : SkBuff Ipv6hdr :=
  ⟨some { packet.hdr with nexthdr := packet.protocol }, some packet.payload, packet.len⟩

end Ipv6Packet

/-- ICMPv6 stands for ICMP. -/
def inIpv4Terms (protocol : UInt8) : UInt8 :=
  if protocol = ipprotoIcmpv6 then ipprotoIcmp else protocol

/-- The hook looks up the protocol of the payload, and its ports if it has any. -/
def ClassifiedByUpper (packet : Ipv6Packet) (behind : HopOpts → PortHdr)
    (hasIn hasOut : Bool) : Prop :=
  ∃ key, hookfn6Rule (packet.skb behind) hasIn hasOut = some key ∧
    key.protocol = inIpv4Terms packet.protocol ∧
      (HasPorts packet.protocol → ∃ bare, hookfn6Rule packet.bare hasIn hasOut = some bare ∧
        key.lport = bare.lport ∧ key.rport = bare.rport)

theorem inIpv4Terms_eq_self_iff {protocol : UInt8} :
    inIpv4Terms protocol = protocol ↔ protocol ≠ ipprotoIcmpv6 := by
  unfold inIpv4Terms
  split
  · next icmp =>
      subst icmp
      decide
  · next other => simp [other]

theorem inIpv4Terms_eq_hopopts_iff {protocol : UInt8} :
    inIpv4Terms protocol = ipprotoHopopts ↔ protocol = ipprotoHopopts := by
  unfold inIpv4Terms
  split
  · next icmp =>
      subst icmp
      decide
  · exact Iff.rfl

theorem hookTransport_some (takesPorts needsHeader : Bool) (rule : NfsRule) (ports : PortHdr) :
    ∃ key, hookTransport takesPorts needsHeader rule (some ports) = some key := by
  cases takesPorts with
  | true => exact ⟨hookPorts rule ports, rfl⟩
  | false =>
      cases needsHeader with
      | true => exact ⟨rule, rfl⟩
      | false => exact ⟨rule, rfl⟩

/-- Every packet is looked up, by the protocol that its fixed header names. -/
theorem hookfn6Rule_skb (packet : Ipv6Packet) (behind : HopOpts → PortHdr)
    (hasIn hasOut : Bool) :
    ∃ key, hookfn6Rule (packet.skb behind) hasIn hasOut = some key ∧
      key.protocol = packet.hdr.nexthdr := by
  have built : ∃ key, hookfn6Rule (packet.skb behind) hasIn hasOut = some key := by
    simp only [hookfn6Rule, Ipv6Packet.skb, packet.version, ne_eq, not_true_eq_false, if_false]
    apply hookTransport_some
  rcases built with ⟨key, passed⟩
  rcases hookfn6Rule_eq_some passed with ⟨hdr, present, -, -, -, protocol, -⟩
  obtain rfl := Option.some.inj present
  exact ⟨key, passed, protocol⟩

theorem protocol_of_hopopts_none {packet : Ipv6Packet} (absent : packet.hopopts = none) :
    packet.protocol = packet.hdr.nexthdr := by
  simp [Ipv6Packet.protocol, absent]

theorem skb_eq_bare {packet : Ipv6Packet} (behind : HopOpts → PortHdr)
    (absent : packet.hopopts = none) : packet.skb behind = packet.bare := by
  simp [Ipv6Packet.skb, Ipv6Packet.bare, protocol_of_hopopts_none absent, absent]

theorem nexthdr_of_hopopts {packet : Ipv6Packet} (present : packet.hopopts ≠ none) :
    packet.hdr.nexthdr = ipprotoHopopts :=
  packet.announced.mpr (Option.isSome_iff_ne_none.mpr present)

/-- A packet without an options header has only ICMPv6 to translate. -/
theorem classifiedByUpper_iff_of_bare {packet : Ipv6Packet} (behind : HopOpts → PortHdr)
    (hasIn hasOut : Bool) (absent : packet.hopopts = none) :
    ClassifiedByUpper packet behind hasIn hasOut ↔ packet.protocol ≠ ipprotoIcmpv6 := by
  rcases hookfn6Rule_skb packet behind hasIn hasOut with ⟨key, passed, protocol⟩
  have payload := protocol_of_hopopts_none absent
  constructor
  · rintro ⟨other, same, terms, -⟩
    obtain rfl := Option.some.inj (passed.symm.trans same)
    apply inIpv4Terms_eq_self_iff.mp
    exact terms.symm.trans (protocol.trans payload.symm)
  · intro notIcmp
    refine ⟨key, passed, ?_, ?_⟩
    · exact (protocol.trans payload.symm).trans (inIpv4Terms_eq_self_iff.mpr notIcmp).symm
    · intro _
      rw [skb_eq_bare behind absent] at passed
      exact ⟨key, passed, rfl, rfl⟩

/-- A packet with an options header is taken for one with nothing behind it. -/
theorem classifiedByUpper_iff_of_hopopts {packet : Ipv6Packet} (behind : HopOpts → PortHdr)
    (hasIn hasOut : Bool) (present : packet.hopopts ≠ none) :
    ClassifiedByUpper packet behind hasIn hasOut ↔ packet.protocol = ipprotoHopopts := by
  rcases hookfn6Rule_skb packet behind hasIn hasOut with ⟨key, passed, protocol⟩
  have announced := nexthdr_of_hopopts present
  constructor
  · rintro ⟨other, same, terms, -⟩
    obtain rfl := Option.some.inj (passed.symm.trans same)
    apply inIpv4Terms_eq_hopopts_iff.mp
    exact terms.symm.trans (protocol.trans announced)
  · intro again
    refine ⟨key, passed, ?_, ?_⟩
    · exact (protocol.trans announced).trans (inIpv4Terms_eq_hopopts_iff.mpr again).symm
    · intro ports
      rw [again] at ports
      exact absurd ports (by decide)

/-- A packet is classified by its payload exactly when it has no options header in front of
the payload, or another one there, and is not ICMPv6. -/
theorem classifiedByUpper_iff (packet : Ipv6Packet) (behind : HopOpts → PortHdr)
    (hasIn hasOut : Bool) :
    ClassifiedByUpper packet behind hasIn hasOut ↔
      (packet.hopopts = none ∨ packet.protocol = ipprotoHopopts) ∧
        packet.protocol ≠ ipprotoIcmpv6 := by
  cases absent : packet.hopopts with
  | none =>
      rw [classifiedByUpper_iff_of_bare behind hasIn hasOut absent]
      simp
  | some hopopts =>
      rw [classifiedByUpper_iff_of_hopopts behind hasIn hasOut (by simp [absent])]
      constructor
      · intro again
        refine ⟨Or.inr again, ?_⟩
        rw [again]
        decide
      · rintro ⟨missing | again, -⟩
        · simp at missing
        · exact again

/-- A router alert in front of a TCP segment. -/
def alertPacket : Ipv6Packet where
  hdr := ⟨6, ipprotoHopopts, Bytes.zero 16, Bytes.zero 16⟩
  hopopts := some ⟨ipprotoTcp, 0, [5, 2, 0, 0, 1, 0], rfl⟩
  payload := ⟨ntohs 3, ntohs 20⟩
  len := 68
  version := rfl
  announced := by decide

theorem alertPacket_not_classified :
    ¬ClassifiedByUpper alertPacket (fun _ => alertPacket.payload) true false := by
  rintro ⟨key, passed, terms, -⟩
  obtain rfl := Option.some.inj passed
  exact absurd terms (by decide)

end Linguafranca.Nfstat
