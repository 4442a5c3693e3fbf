import Linguafranca.Nfstat.Hook

/-!
# Finding the rule of a packet

A packet is looked up in the rule tree by `rulecmp`, under which a field that a stored rule
does not care about ties. The descent therefore passes a node on the side that the fields
before the wildcard say, and may leave behind a rule that matches: with a rule for local
port 10 above a rule for any local port, a packet to port 20 goes right of the first and
never meets the second.

The lookup is complete as long as the rules that are compared with each other have their
wildcards in the same fields up to the first field in which they differ (`AlignedCall`),
whatever shape the tree takes. A packet must have been handed to the hook with a device;
otherwise its own direction is a wildcard.
-/

namespace Linguafranca.Nfstat

open SearchTree Wildcard Run

/-- The calls that edit the rule tree. -/
inductive RuleCall where
  | add (rule : NfsRule) (created : Bool) (rebalance : Rebalance NfsRule)
  | rmv (rule : NfsRule) (rebalance : Rebalance NfsRule)

/-- The tree after a call. -/
def ruleStep (ruletree : BinaryTree NfsRule) : RuleCall → BinaryTree NfsRule
  | .add rule created rebalance => (addnfsrule rule created rebalance ruletree).2
  | .rmv rule rebalance => (rmvnfsrule rule rebalance ruletree).2

/-- A key that one of the two hooks builds from a packet. -/
def PacketKey (key : NfsRule) : Prop :=
  (∃ skb hasIn hasOut, hookfnRule skb hasIn hasOut = some key) ∨
    ∃ skb hasIn hasOut, hookfn6Rule skb hasIn hasOut = some key

/-- A rule may be added when its addresses fit their arrays and each stored rule overlaps it
or has its wildcards in the same fields up to the first one in which the two differ. -/
def AlignedCall (ruletree : BinaryTree NfsRule) : RuleCall → Prop
  | .add rule _ _ => rule.lip.len ≤ 16 ∧ rule.rip.len ≤ 16 ∧
      ∀ stored ∈ inorder ruletree,
        rulecmp rule stored = 0 ∨ Aligned rule.fields stored.fields
  | .rmv _ _ => True

/-- The stored rules are pairwise aligned and stand in their order. -/
def Ranked (rules : List NfsRule) : Prop :=
  rules.Pairwise (fun first second => Aligned first.fields second.fields ∧
    compareFields first.fields second.fields = .lt)

theorem rulecmp_eq_zero_iff {rule stored : NfsRule} :
    rulecmp rule stored = 0 ↔ compareFields rule.fields stored.fields = .eq := by
  rw [← steerRule_eq_compareFields, steerRule, cmp_eq_eq_iff]

/-- A rule that ties with the stored rules only where it is aligned with the others is
guided to each rule it ties with. -/
theorem Ranked.guides {rules : List NfsRule} {rule : NfsRule} (ranked : Ranked rules)
    (side : ∀ tied ∈ rules, compareFields rule.fields tied.fields = .eq →
      ∀ stored ∈ rules, Aligned tied.fields stored.fields →
        compareFields rule.fields stored.fields = .eq ∨
          compareFields rule.fields stored.fields =
            compareFields tied.fields stored.fields) :
    Guides (steerRule rule) rules := by
  refine List.Pairwise.imp_of_mem ?_ ranked
  intro first second firstMem secondMem pair
  rcases pair with ⟨aligned, below⟩
  simp only [steerRule_eq_compareFields]
  constructor
  · intro ties
    rcases side first firstMem ties second secondMem aligned with same | same <;>
      simp [same, below]
  · intro ties
    have above : compareFields second.fields first.fields = .gt :=
      compareFields_eq_gt_iff.mpr below
    rcases side second secondMem ties first firstMem aligned.symm with same | same <;>
      simp [same, above]

/-- A rule aligned with all the stored ones descends monotonically. -/
theorem Ranked.monotone {rules : List NfsRule} {rule : NfsRule} (ranked : Ranked rules)
    (aligned : ∀ stored ∈ rules, Aligned rule.fields stored.fields) :
    Monotone (steerRule rule) rules := by
  refine List.Pairwise.imp_of_mem ?_ ranked
  intro first second firstMem secondMem pair
  simp only [steerRule_eq_compareFields]
  constructor
  · intro above
    apply compareFields_eq_gt_iff.mpr
    exact compareFields_trans pair.1 (aligned second secondMem).symm pair.2
      (compareFields_eq_gt_iff.mp above)
  · intro below
    exact compareFields_trans (aligned first firstMem) pair.1 below pair.2

theorem Ranked.of_inorder_sublist {rules fewer : List NfsRule} (ranked : Ranked rules)
    (sublist : fewer.Sublist rules) : Ranked fewer :=
  List.Pairwise.sublist sublist ranked

/-- A rule that overlaps a stored one is met by the descent and not linked. -/
theorem link_eq_none_of_overlap {ruletree : BinaryTree NfsRule} {rule tied : NfsRule}
    (ranked : Ranked (inorder ruletree))
    (allowed : ∀ stored ∈ inorder ruletree,
      rulecmp rule stored = 0 ∨ Aligned rule.fields stored.fields)
    (tiedMem : tied ∈ inorder ruletree) (ties : rulecmp rule tied = 0) :
    link (steerRule rule) rule ruletree = none := by
  rw [link_eq_none_iff]
  have guides : Guides (steerRule rule) (inorder ruletree) := by
    apply ranked.guides
    intro other _ tiesOther stored storedMem aligned
    rcases allowed stored storedMem with overlap | alignedRule
    · exact Or.inl (rulecmp_eq_zero_iff.mp overlap)
    · exact Or.inr (compareFields_of_aligned (Or.inr alignedRule) aligned rfl tiesOther)
  apply find_isSome_of_guides guides tiedMem
  rw [steerRule_eq_compareFields]
  exact rulecmp_eq_zero_iff.mp ties

theorem ranked_of_link {ruletree linked : BinaryTree NfsRule} {rule : NfsRule}
    (ranked : Ranked (inorder ruletree))
    (aligned : ∀ stored ∈ inorder ruletree, Aligned rule.fields stored.fields)
    (success : link (steerRule rule) rule ruletree = some linked) :
    Ranked (inorder linked) := by
  rcases split_of_link_of_monotone (ranked.monotone aligned) success with
    ⟨before, after, sequence, placed, beforeDir, afterDir⟩
  simp only [steerRule_eq_compareFields] at beforeDir afterDir
  rw [sequence] at ranked aligned
  rw [placed]
  simp only [Ranked, List.pairwise_append, List.pairwise_cons, List.mem_cons] at ranked ⊢
  rcases ranked with ⟨rankedBefore, rankedAfter, across⟩
  refine ⟨rankedBefore, ⟨?_, rankedAfter⟩, ?_⟩
  · intro stored storedMem
    exact ⟨aligned stored (by simp [storedMem]), afterDir stored storedMem⟩
  · rintro stored storedMem other (rfl | otherMem)
    · exact ⟨(aligned stored (by simp [storedMem])).symm,
        compareFields_eq_gt_iff.mp (beforeDir stored storedMem)⟩
    · exact across stored storedMem other otherMem

theorem ranked_ruleStep (ruletree : BinaryTree NfsRule) (call : RuleCall)
    (ranked : Ranked (inorder ruletree)) (allowed : AlignedCall ruletree call) :
    Ranked (inorder (ruleStep ruletree call)) := by
  cases call with
  | add rule created rebalance =>
      rcases allowed with ⟨-, -, allowed⟩
      simp only [ruleStep, addnfsrule]
      split
      · cases success : link (steerRule rule) rule ruletree with
        | none => exact ranked
        | some linked =>
            simp only [Rebalance.inorder_apply]
            apply ranked_of_link ranked ?_ success
            intro stored storedMem
            rcases allowed stored storedMem with overlap | aligned
            · rw [link_eq_none_of_overlap ranked allowed storedMem overlap] at success
              simp at success
            · exact aligned
      · exact ranked
  | rmv rule rebalance =>
      simp only [ruleStep, rmvnfsrule]
      split
      · exact ranked
      · simp only [Rebalance.inorder_apply]
        exact ranked.of_inorder_sublist (inorder_erase_sublist ruletree)

/-! ## The keys of packets -/

theorem family_of_packetKey {key : NfsRule} (packet : PacketKey key) :
    (key.lip.len = 4 ∨ key.lip.len = 6) ∧ (key.rip.len = 4 ∨ key.rip.len = 6) := by
  rcases packet with ⟨skb, hasIn, hasOut, built⟩ | ⟨skb, hasIn, hasOut, built⟩
  · rcases hookfnRule_eq_some built with ⟨hdr, -, -, lip, rip, -, -⟩
    rw [lip, rip]
    exact ⟨Or.inl rfl, Or.inl rfl⟩
  · rcases hookfn6Rule_eq_some built with ⟨hdr, -, -, lip, rip, -, -⟩
    rw [lip, rip]
    exact ⟨Or.inr rfl, Or.inr rfl⟩

/-- The key of a packet with ports and a device cares about every field. -/
theorem full_fields_of_packetKey {key : NfsRule} (packet : PacketKey key)
    (lport : key.lport ≠ 0) (rport : key.rport ≠ 0) (dir : key.dir ≠ nfsAll) :
    Full key.fields := by
  have cares : ∀ len : UInt8, len = 4 ∨ len = 6 → len ≠ 0 := by
    rintro len (rfl | rfl)
    · simp
    · simp
  rcases family_of_packetKey packet with ⟨lip, rip⟩
  have port : ∀ p : UInt16, p ≠ 0 → p.toNat ≠ 0 := fun p nonzero same =>
    nonzero (UInt16.toNat_inj.mp same)
  have dirNat : key.dir.toNat ≠ 0 := fun same => dir (UInt8.toNat_inj.mp same)
  intro field member
  simp only [NfsRule.fields, List.mem_cons, List.not_mem_nil, or_false] at member
  rcases member with rfl | rfl | rfl | rfl | rfl | rfl
  · rfl
  · simp [wildcardField, dirNat]
  · simp [wildcardField, port _ lport]
  · simp [wildcardField, port _ rport]
  · simp [ipField, cares _ lip]
  · simp [ipField, cares _ rip]

/-- In a ranked tree a full key meets every rule it matches or another one first. -/
theorem getTypeidx_nonneg_of_ranked {ruletree : BinaryTree NfsRule} {key stored : NfsRule}
    (ranked : Ranked (inorder ruletree)) (full : Full key.fields)
    (member : stored ∈ inorder ruletree) (matched : rulecmp key stored = 0) :
    0 ≤ getTypeidx ruletree key := by
  have guides : Guides (steerRule key) (inorder ruletree) := by
    apply ranked.guides
    intro tied _ ties other _ aligned
    exact Or.inr (compareFields_of_aligned (Or.inl full) aligned rfl ties)
  have stops : steerRule key stored = .eq := by
    rw [steerRule_eq_compareFields]
    exact rulecmp_eq_zero_iff.mp matched
  have found := find_isSome_of_guides guides member stops
  rcases Option.isSome_iff_exists.mp found with ⟨entry, entryFound⟩
  simp [getTypeidx, findnfsrule, entryFound]

/-- After calls that add only aligned rules, a packet that matches a stored rule is
classified. -/
theorem getTypeidx_nonneg_of_match {calls : List RuleCall} {key : NfsRule}
    (allowed : Meets ruleStep AlignedCall .nil calls) (packet : PacketKey key)
    (lport : key.lport ≠ 0) (rport : key.rport ≠ 0) (dir : key.dir ≠ nfsAll)
    (matched : ∃ stored ∈ inorder (run ruleStep .nil calls), rulecmp key stored = 0) :
    0 ≤ getTypeidx (run ruleStep .nil calls) key := by
  have ranked : Ranked (inorder (run ruleStep .nil calls)) :=
    invariant ranked_ruleStep (by simp [Ranked]) allowed
  rcases matched with ⟨stored, member, ties⟩
  exact getTypeidx_nonneg_of_ranked ranked (full_fields_of_packetKey packet lport rport dir)
    member ties

/-- A TCP rule for every direction and address with the given ports. -/
def tcpPortsRule (lport rport : UInt16) (typeidx : UInt8) : NfsRule :=
  ⟨NfsIpaddr.zero, NfsIpaddr.zero, lport, rport, ipprotoTcp, nfsAll, typeidx⟩

/-- An inbound TCP packet with the given ports. -/
def tcpPacket (source dest : UInt16) : SkBuff Iphdr :=
  ⟨some ⟨4, ipprotoTcp, Bytes.zero 4, Bytes.zero 4⟩, some ⟨ntohs source, ntohs dest⟩, 60⟩

/-- The key of `tcpPacket 3 20`. -/
def tcpPacketKey : NfsRule :=
  ⟨hookAddr 4 (Bytes.zero 4), hookAddr 4 (Bytes.zero 4), 20, 3, ipprotoTcp, 1, 0⟩

theorem packetKey_tcpPacketKey : PacketKey tcpPacketKey :=
  Or.inl ⟨tcpPacket 3 20, true, false, by decide⟩

theorem getTypeidx_nonneg_for_two_remote_ports :
    0 ≤ getTypeidx (run ruleStep .nil [.add (tcpPortsRule 0 5 0) true .none,
      .add (tcpPortsRule 0 3 1) true .none]) tcpPacketKey := by
  apply getTypeidx_nonneg_of_match _ packetKey_tcpPacketKey
  · decide
  · decide
  · decide
  · exact ⟨tcpPortsRule 0 3 1, by decide, by decide⟩
  · refine ⟨⟨by decide, by decide, ?_⟩, ⟨by decide, by decide, ?_⟩, trivial⟩
    · simp
    · decide

/-- A rule for local port 10 at the root hides the rule for remote port 3 below it from a
packet to local port 20. A tree of two nodes is not rotated. -/
theorem getTypeidx_misses_match :
    ¬∀ (calls : List RuleCall) (key : NfsRule), PacketKey key → key.lport ≠ 0 → key.rport ≠ 0 →
      (∃ stored ∈ inorder (run ruleStep .nil calls), rulecmp key stored = 0) →
        0 ≤ getTypeidx (run ruleStep .nil calls) key := by
  intro complete
  have found := complete [.add (tcpPortsRule 10 5 0) true .none,
    .add (tcpPortsRule 0 3 1) true .none] tcpPacketKey packetKey_tcpPacketKey (by decide)
    (by decide) ⟨tcpPortsRule 0 3 1, by decide, by decide⟩
  revert found
  decide

end Linguafranca.Nfstat
