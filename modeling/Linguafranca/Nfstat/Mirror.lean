import Linguafranca.Nfstat.Slots

/-!
# The two directions of a conversation

The hooks take the local address and port of a packet from its destination when it comes in
and from its source when it goes out. What remains of the direction in the search key is the
field `dir`, which a rule for all directions does not look at.
-/

namespace Linguafranca.Nfstat

open SearchTree Run

/-- The header of the packet in the other direction. -/
def Iphdr.mirror (hdr : Iphdr) : Iphdr :=
  { hdr with saddr := hdr.daddr, daddr := hdr.saddr }

/-- The header of the packet in the other direction. -/
def Ipv6hdr.mirror (hdr : Ipv6hdr) : Ipv6hdr :=
  { hdr with saddr := hdr.daddr, daddr := hdr.saddr }

/-- The ports of the packet in the other direction. -/
def PortHdr.mirror (ports : PortHdr) : PortHdr :=
  ⟨ports.dest, ports.source⟩

/-- The protocols that have ports. -/
def HasPorts (protocol : UInt8) : Prop :=
  protocol = ipprotoTcp ∨ protocol = ipprotoUdp ∨ protocol = ipprotoSctp

instance (protocol : UInt8) : Decidable (HasPorts protocol) :=
  inferInstanceAs (Decidable (_ ∨ _ ∨ _))

/-- The second packet goes back where the first came from. -/
structure Mirrors {Header : Type} (mirror : Header → Header) (protocol : Header → UInt8)
    (inbound outbound : SkBuff Header) : Prop where
  hdr : outbound.hdr = inbound.hdr.map mirror
  trans : outbound.trans.isSome = inbound.trans.isSome
  ports : ∀ hdr, inbound.hdr = some hdr → HasPorts (protocol hdr) →
    outbound.trans = inbound.trans.map PortHdr.mirror

/-- The keys of two packets of one conversation: everything but the direction is equal. -/
structure SameConversation (first second : NfsRule) : Prop where
  protocol : first.protocol = second.protocol
  lip : first.lip = second.lip
  rip : first.rip = second.rip
  lport : first.lport = second.lport
  rport : first.rport = second.rport

/-- The address and the type under which a packet with this key is counted. -/
def countPlace (state : NfsState) (key : NfsRule) : Option (NfsIpaddr × UInt8) :=
  match findnfsrule key state.ruletree, findipentry key.lip state.iptree with
  | some rule, some _ => some (key.lip, rule.typeidx)
  | _, _ => none

/-- A packet is counted at an address and a type, if there are any. -/
def countAt (cpu : ℕ) (len : UInt32) (state : NfsState) : Option (NfsIpaddr × UInt8) → NfsState
  | none => state
  | some (ip, typeidx) =>
      { state with iptree := inccounter ip typeidx len.toUInt64 cpu state.iptree }

/-- A packet, by the key that the hook builds for it and what the hook does on each CPU. -/
structure Handled where
  key : Option NfsRule
  len : UInt32
  after : ℕ → NfsState

/-- Two packets are accepted without a look at the rules, or have keys of one conversation and
one type and are counted at one place or nowhere. -/
def TreatedAlike (state : NfsState) (inbound outbound : Handled) : Prop :=
  match inbound.key, outbound.key with
  | none, none => ∀ cpu, inbound.after cpu = state ∧ outbound.after cpu = state
  | some first, some second => SameConversation first second ∧
      getTypeidx state.ruletree first = getTypeidx state.ruletree second ∧
        ∀ cpu, inbound.after cpu = countAt cpu inbound.len state (countPlace state first) ∧
          outbound.after cpu = countAt cpu outbound.len state (countPlace state first)
  | _, _ => False

/-- What the hook makes of an IPv4 packet. -/
def handled (skb : SkBuff Iphdr) (hasIn hasOut : Bool) (state : NfsState) : Handled :=
  ⟨hookfnRule skb hasIn hasOut, skb.len, fun cpu => hookfn cpu skb hasIn hasOut state⟩

/-- What the hook makes of an IPv6 packet. -/
def handled6 (skb : SkBuff Ipv6hdr) (hasIn hasOut : Bool) (state : NfsState) : Handled :=
  ⟨hookfn6Rule skb hasIn hasOut, skb.len, fun cpu => hookfn6 cpu skb hasIn hasOut state⟩

section

variable {state : NfsState} {first second : NfsRule}

/-! ## The search -/

/-- A rule for all directions does not tell the keys of a conversation apart. -/
theorem steerRule_congr (same : SameConversation first second) {stored : NfsRule}
    (all : stored.dir = nfsAll) : steerRule first stored = steerRule second stored := by
  simp only [steerRule, rulecmp, same.protocol, same.lip, same.rip, same.lport, same.rport, all,
    ne_eq, not_true_eq_false, false_and, and_false, if_false]

theorem findnfsrule_congr (same : SameConversation first second)
    (all : ∀ rule ∈ inorder state.ruletree, rule.dir = nfsAll) :
    findnfsrule first state.ruletree = findnfsrule second state.ruletree := by
  apply find_congr
  intro stored member
  exact steerRule_congr same (all stored member)

theorem countPacket_eq_countAt (cpu : ℕ) (key : NfsRule) (len : UInt32) (state : NfsState) :
    countPacket cpu key len state = countAt cpu len state (countPlace state key) := by
  cases found : findnfsrule key state.ruletree with
  | none => simp [countPacket_of_not_found found, countPlace, found, countAt]
  | some rule =>
      cases stored : findipentry key.lip state.iptree with
      | none =>
          have missing : find (steerIp key.lip) state.iptree = none := stored
          simp [countPacket_of_found found, countPlace, found, stored, countAt,
            modify_of_find_none _ missing]
      | some entry =>
          simp [countPacket_of_found found, countPlace, found, stored, countAt,
            inccounter_eq_modify]

/-- Keys of one conversation are counted at one place. -/
theorem countPlace_congr (same : SameConversation first second)
    (all : ∀ rule ∈ inorder state.ruletree, rule.dir = nfsAll) :
    countPlace state first = countPlace state second := by
  simp only [countPlace, findnfsrule_congr same all, same.lip]

theorem treatedAlike_of_keys (all : ∀ rule ∈ inorder state.ruletree, rule.dir = nfsAll)
    {inbound outbound : Handled}
    (keys : Option.Rel SameConversation inbound.key outbound.key)
    (inAfter : ∀ cpu, inbound.after cpu = match inbound.key with
      | none => state
      | some key => countPacket cpu key inbound.len state)
    (outAfter : ∀ cpu, outbound.after cpu = match outbound.key with
      | none => state
      | some key => countPacket cpu key outbound.len state) :
    TreatedAlike state inbound outbound := by
  rcases inbound with ⟨inKey, inLen, inState⟩
  rcases outbound with ⟨outKey, outLen, outState⟩
  cases keys with
  | none =>
      intro cpu
      exact ⟨inAfter cpu, outAfter cpu⟩
  | some same =>
      refine ⟨same, ?_, ?_⟩
      · simp only [getTypeidx, findnfsrule_congr same all]
      · intro cpu
        constructor
        · exact (inAfter cpu).trans (countPacket_eq_countAt cpu _ inLen state)
        · rw [countPlace_congr same all]
          exact (outAfter cpu).trans (countPacket_eq_countAt cpu _ outLen state)

/-! ## The keys -/

theorem hookDir_inbound : hookDir true false ≠ nfsOut := by
  decide

theorem hookTransport_mirror {takesPorts needsHeader : Bool} {transIn transOut : Option PortHdr}
    (same : SameConversation first second) (inbound : first.dir ≠ nfsOut)
    (outbound : second.dir = nfsOut) (presence : transOut.isSome = transIn.isSome)
    (ports : takesPorts = true → transOut = transIn.map PortHdr.mirror) :
    Option.Rel SameConversation (hookTransport takesPorts needsHeader first transIn)
      (hookTransport takesPorts needsHeader second transOut) := by
  simp only [hookTransport]
  split
  · next takes =>
      rw [ports takes]
      cases transIn with
      | none => exact .none
      | some trans =>
          apply Option.Rel.some
          constructor
          · exact same.protocol
          · exact same.lip
          · exact same.rip
          · simp [hookPorts, inbound, outbound, PortHdr.mirror]
          · simp [hookPorts, inbound, outbound, PortHdr.mirror]
  · split
    · cases transIn with
      | none =>
          cases transOut with
          | none => exact .none
          | some trans => simp at presence
      | some trans =>
          cases transOut with
          | none => simp at presence
          | some other => exact .some same
    · exact .some same

theorem hookfnRule_mirror {inbound outbound : SkBuff Iphdr}
    (mirrors : Mirrors Iphdr.mirror Iphdr.protocol inbound outbound) :
    Option.Rel SameConversation (hookfnRule inbound true false)
      (hookfnRule outbound false true) := by
  have hdrOut := mirrors.hdr
  cases present : inbound.hdr with
  | none =>
      rw [present] at hdrOut
      simp only [hookfnRule, present, hdrOut, Option.map_none]
      exact .none
  | some hdr =>
      rw [present] at hdrOut
      simp only [hookfnRule, present, hdrOut, Option.map_some, Iphdr.mirror]
      split
      · exact .none
      · apply hookTransport_mirror _ hookDir_inbound rfl mirrors.trans
        · intro takes
          exact mirrors.ports hdr present (of_decide_eq_true takes)
        · constructor
          all_goals rfl

theorem hookfn6Rule_mirror {inbound outbound : SkBuff Ipv6hdr}
    (mirrors : Mirrors Ipv6hdr.mirror Ipv6hdr.nexthdr inbound outbound) :
    Option.Rel SameConversation (hookfn6Rule inbound true false)
      (hookfn6Rule outbound false true) := by
  have hdrOut := mirrors.hdr
  cases present : inbound.hdr with
  | none =>
      rw [present] at hdrOut
      simp only [hookfn6Rule, present, hdrOut, Option.map_none]
      exact .none
  | some hdr =>
      rw [present] at hdrOut
      simp only [hookfn6Rule, present, hdrOut, Option.map_some, Ipv6hdr.mirror]
      split
      · exact .none
      · apply hookTransport_mirror _ hookDir_inbound rfl mirrors.trans
        · intro takes
          exact mirrors.ports hdr present (of_decide_eq_true takes)
        · constructor
          all_goals rfl

end

/-- Where all rules are for all directions, both hooks treat a packet that comes in and the
one that goes back alike. -/
theorem directions_treated_alike (state : NfsState)
    (all : ∀ rule ∈ inorder state.ruletree, rule.dir = nfsAll) :
    (∀ inbound outbound, Mirrors Iphdr.mirror Iphdr.protocol inbound outbound →
      TreatedAlike state (handled inbound true false state) (handled outbound false true state)) ∧
    ∀ inbound outbound, Mirrors Ipv6hdr.mirror Ipv6hdr.nexthdr inbound outbound →
      TreatedAlike state (handled6 inbound true false state)
        (handled6 outbound false true state) := by
  constructor
  · intro inbound outbound mirrors
    apply treatedAlike_of_keys all (hookfnRule_mirror mirrors)
    · exact fun _ => rfl
    · exact fun _ => rfl
  · intro inbound outbound mirrors
    apply treatedAlike_of_keys all (hookfn6Rule_mirror mirrors)
    · exact fun _ => rfl
    · exact fun _ => rfl

/-- 192.168.0.1 and 192.168.0.7. -/
def gatewayAddr : Bytes 4 :=
  ⟨[192, 168, 0, 1], rfl⟩

/-- 192.168.0.7. -/
def clientAddr : Bytes 4 :=
  ⟨[192, 168, 0, 7], rfl⟩

/-- A UDP packet to the gateway, and the answer. -/
def udpRequest : SkBuff Iphdr :=
  ⟨some ⟨4, ipprotoUdp, clientAddr, gatewayAddr⟩, some ⟨7, 9⟩, 60⟩

/-- A datagram from the gateway back to the client. -/
def udpReply : SkBuff Iphdr :=
  ⟨some ⟨4, ipprotoUdp, gatewayAddr, clientAddr⟩, some ⟨9, 7⟩, 80⟩

/-- UDP packets are counted for the gateway. -/
def gatewayState : NfsState :=
  run nfsStep .init (slotRun 1 ++ [.request (.addip (hookAddr 4 gatewayAddr) true .none)])

theorem directions_treated_alike_for_udp :
    TreatedAlike gatewayState (handled udpRequest true false gatewayState)
      (handled udpReply false true gatewayState) := by
  have all : ∀ rule ∈ inorder gatewayState.ruletree, rule.dir = nfsAll := by
    decide
  apply (directions_treated_alike gatewayState all).1
  constructor
  · rfl
  · rfl
  · intro _ _ _
    rfl

end Linguafranca.Nfstat
