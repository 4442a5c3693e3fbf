import Linguafranca.Nfstat.Overlap
import Linguafranca.Nfstat.Step

/-!
# Whether the rule found fits the packet

`rulecmp` is made for two rules: a zero is a wildcard on either side, so that a packet without
ports, or with port zero, fits rules that ask for a port; and as an IPv6 address has the tag
six, six of its bytes are compared. A packet is classified by rules that fit it exactly when no
rule ties with it for one of these reasons.
-/

namespace Linguafranca.Nfstat

open SearchTree Run

/-- The bytes of an address of a family. -/
def familySize (len : UInt8) : ℕ :=
  if len = 4 then 4 else 16

/-- The rule does not care about the address or asks for this one. -/
def AllowsIp (rule key : NfsIpaddr) : Prop :=
  rule.len = 0 ∨ (rule.len = key.len ∧
    rule.addr.1.take (familySize key.len) = key.addr.1.take (familySize key.len))

/-- The packet is one that the rule asks for. -/
structure Constrains (rule key : NfsRule) : Prop where
  protocol : rule.protocol = key.protocol
  dir : rule.dir = nfsAll ∨ rule.dir = key.dir
  lport : rule.lport = 0 ∨ rule.lport = key.lport
  rport : rule.rport = 0 ∨ rule.rport = key.rport
  lip : AllowsIp rule.lip key.lip
  rip : AllowsIp rule.rip key.rip

/-- A packet that gets a type gets that of a rule that asks for it. -/
def SoundLookup (ruletree : BinaryTree NfsRule) (key : NfsRule) : Prop :=
  0 ≤ getTypeidx ruletree key → ∃ rule ∈ inorder ruletree,
    (rule.typeidx.toNat : Int) = getTypeidx ruletree key ∧ Constrains rule key

/-- The bytes of an IPv6 address that are not compared. -/
def SameBeyondSix (rule key : NfsIpaddr) : Prop :=
  rule.len = 6 → key.len = 6 → rule.addr.1.drop 6 = key.addr.1.drop 6

/-- The rule cares about no field that the packet leaves blank, and about no other address
with the same first six bytes. -/
structure Respects (rule key : NfsRule) : Prop where
  dir : key.dir = nfsAll → rule.dir = nfsAll
  lport : key.lport = 0 → rule.lport = 0
  rport : key.rport = 0 → rule.rport = 0
  lip : SameBeyondSix rule.lip key.lip
  rip : SameBeyondSix rule.rip key.rip

/-- Only rules of a given kind are added. -/
def AddsOnly (allowed : Set NfsRule) (calls : List RuleCall) : Prop :=
  ∀ rule created rebalance, .add rule created rebalance ∈ calls → rule ∈ allowed

/-! ## One rule and one packet -/

section Fit

variable {rule key : NfsRule}

theorem allowsIp_iff {rule key : NfsIpaddr} (family : key.len = 4 ∨ key.len = 6)
    (ties : ipcmp key rule = 0) : AllowsIp rule key ↔ SameBeyondSix rule key := by
  have some : key.len ≠ 0 := by
    rcases family with four | six
    · simp [four]
    · simp [six]
  simp only [ipcmp_eq_zero_iff, some, false_or] at ties
  rcases ties with blank | ⟨same, bytes⟩
  · simp [AllowsIp, SameBeyondSix, blank]
  · have cares : rule.len ≠ 0 := by rwa [← same]
    rcases family with four | six
    · have ruleFour : rule.len = 4 := same.symm.trans four
      rw [four] at bytes
      have equal : rule.addr.1.take 4 = key.addr.1.take 4 := bytes.symm
      simp [AllowsIp, SameBeyondSix, familySize, four, ruleFour, equal]
    · have ruleSix : rule.len = 6 := same.symm.trans six
      rw [six] at bytes
      have front : rule.addr.1.take 6 = key.addr.1.take 6 := bytes.symm
      have whole : ∀ ip : NfsIpaddr, ip.addr.1.take 16 = ip.addr.1 := fun ip =>
        List.take_of_length_le ip.addr.2.le
      have allows : AllowsIp rule key ↔ rule.addr.1 = key.addr.1 := by
        simp [AllowsIp, familySize, six, ruleSix, whole]
      have rest : SameBeyondSix rule key ↔ rule.addr.1.drop 6 = key.addr.1.drop 6 := by
        simp [SameBeyondSix, six, ruleSix]
      rw [allows, rest]
      constructor
      · exact congrArg (List.drop 6)
      · intro back
        rw [← List.take_append_drop 6 rule.addr.1, front, back, List.take_append_drop]

/-- A field that ties is a wildcard of the rule or the packet's. -/
theorem allows_iff {Field : Type*} {blank rule key : Field}
    (ties : key = blank ∨ rule = blank ∨ key = rule) :
    (rule = blank ∨ rule = key) ↔ (key = blank → rule = blank) := by
  constructor
  · rintro (wild | rfl) none
    · exact wild
    · exact none
  · intro respects
    rcases ties with none | wild | same
    · exact Or.inl (respects none)
    · exact Or.inl wild
    · exact Or.inr same.symm

theorem constrains_iff (packet : PacketKey key) (ties : Ties key rule) :
    Constrains rule key ↔ Respects rule key := by
  rcases family_of_packetKey packet with ⟨local', remote⟩
  have dir := allows_iff ties.dir
  have lport := allows_iff ties.lport
  have rport := allows_iff ties.rport
  have lip := allowsIp_iff local' ties.lip
  have rip := allowsIp_iff remote ties.rip
  constructor
  · intro constrains
    exact ⟨dir.mp constrains.dir, lport.mp constrains.lport, rport.mp constrains.rport,
      lip.mp constrains.lip, rip.mp constrains.rip⟩
  · intro respects
    exact ⟨ties.protocol.symm, dir.mpr respects.dir, lport.mpr respects.lport,
      rport.mpr respects.rport, lip.mpr respects.lip, rip.mpr respects.rip⟩

end Fit

/-! ## Runs -/

section Runs

variable {allowed : Set NfsRule} {calls : List RuleCall} {key rule : NfsRule}

theorem allowed_of_stored (adds : AddsOnly allowed calls)
    (stored : rule ∈ inorder (run ruleStep .nil calls)) : rule ∈ allowed := by
  have kept : ∀ (ruletree : BinaryTree NfsRule) (call : RuleCall),
      (∀ rule ∈ inorder ruletree, rule ∈ allowed) → call ∈ calls →
        ∀ rule ∈ inorder (ruleStep ruletree call), rule ∈ allowed := by
    intro ruletree call holds listed rule member
    cases call with
    | add new created rebalance =>
        rcases mem_addnfsrule member with old | rfl
        · exact holds rule old
        · exact adds rule created rebalance listed
    | rmv gone rebalance => exact holds rule (mem_rmvnfsrule member)
  have listed : Meets ruleStep (fun _ call => call ∈ calls) BinaryTree.nil calls :=
    meets_of_mem (fun call member _ => member) BinaryTree.nil
  exact invariant kept (by simp) listed rule stored

/-- Whatever rules of a kind are added and removed, the packet is classified by rules that ask
for it, exactly when no rule of that kind ties with it for another reason. -/
theorem soundLookup_iff (packet : PacketKey key) (allowed : Set NfsRule) :
    (∀ calls, AddsOnly allowed calls → SoundLookup (run ruleStep .nil calls) key) ↔
      ∀ rule ∈ allowed, rulecmp key rule = 0 → Respects rule key := by
  constructor
  · intro sound rule member overlaps
    have ties := rulecmp_eq_zero_iff_ties.mp overlaps
    -- the rule alone in the tree
    have only : AddsOnly allowed [.add rule true .none] := by
      rintro other created rebalance added
      obtain ⟨rfl, -, -⟩ := RuleCall.add.inj (List.mem_singleton.mp added)
      exact member
    have alone : run ruleStep .nil [.add rule true .none] =
        (.node rule .nil .nil : BinaryTree NfsRule) := rfl
    have found : getTypeidx (.node rule .nil .nil) key = rule.typeidx.toNat := by
      apply getTypeidx_eq_some
      simp [findnfsrule, find, steerRule, overlaps]
    have lookup := sound _ only
    rw [alone] at lookup
    rcases lookup (by rw [found]; omega) with ⟨other, stored, -, constrains⟩
    obtain rfl : other = rule := List.mem_singleton.mp stored
    exact (constrains_iff packet ties).mp constrains
  · intro respects calls adds classified
    cases found : findnfsrule key (run ruleStep .nil calls) with
    | none => simp [getTypeidx, found] at classified
    | some rule =>
        have stored := mem_of_find found
        have stops : steerRule key rule = .eq := dir_of_find found
        have overlaps : rulecmp key rule = 0 := (cmp_eq_eq_iff _ _).mp stops
        have ties := rulecmp_eq_zero_iff_ties.mp overlaps
        refine ⟨rule, stored, (getTypeidx_eq_some found).symm, ?_⟩
        apply (constrains_iff packet ties).mpr
        exact respects rule (allowed_of_stored adds stored) overlaps

/-- An IPv4 packet with ports and a device is never taken for another one. -/
theorem respects_of_ipv4 (dir : key.dir ≠ nfsAll) (lport : key.lport ≠ 0) (rport : key.rport ≠ 0)
    (lip : key.lip.len = 4) (rip : key.rip.len = 4) : Respects rule key where
  dir := fun blank => absurd blank dir
  lport := fun blank => absurd blank lport
  rport := fun blank => absurd blank rport
  lip := fun _ six => by simp [lip] at six
  rip := fun _ six => by simp [rip] at six

end Runs

theorem soundLookup_for_tcpPacket :
    SoundLookup (run ruleStep .nil [.add (tcpPortsRule 0 5 0) true .none,
      .add (tcpPortsRule 20 0 1) true .none]) tcpPacketKey := by
  apply (soundLookup_iff packetKey_tcpPacketKey Set.univ).mpr
  · intro rule _ _
    exact respects_of_ipv4 (by decide) (by decide) (by decide) rfl rfl
  · intro _ _ _ _
    trivial

/-! ## Two IPv6 addresses in one network -/

/-- The address 2001:db8:: with a last byte. -/
def docIp (last : UInt8) : NfsIpaddr :=
  ⟨6, Bytes.zero 3, ⟨[0x20, 0x01, 0x0d, 0xb8, 0, 0, 0, 0, 0, 0, 0, 0, 0, 0, 0, last], rfl⟩⟩

/-- A rule for TCP to the first address. -/
def docRule : NfsRule :=
  ⟨docIp 1, NfsIpaddr.zero, 0, 0, ipprotoTcp, nfsAll, 7⟩

/-- A TCP packet to the second address, from port 3 to port 20. -/
def docPacket : SkBuff Ipv6hdr :=
  ⟨some ⟨6, ipprotoTcp, Bytes.zero 16, (docIp 2).addr⟩, some ⟨ntohs 3, ntohs 20⟩, 60⟩

/-- The key of that packet. -/
def docKey : NfsRule :=
  ⟨docIp 2, hookAddr 6 (Bytes.zero 16), 20, 3, ipprotoTcp, 1, 0⟩

theorem docKey_unsound : PacketKey docKey ∧
    ¬SoundLookup (run ruleStep .nil [.add docRule true .none]) docKey := by
  refine ⟨Or.inr ⟨docPacket, true, false, by decide⟩, ?_⟩
  intro sound
  rcases sound (by decide) with ⟨rule, stored, -, constrains⟩
  obtain rfl : rule = docRule := List.mem_singleton.mp stored
  rcases constrains.lip with blank | ⟨-, bytes⟩
  · exact absurd blank (by decide)
  · exact absurd bytes (by decide)

end Linguafranca.Nfstat
