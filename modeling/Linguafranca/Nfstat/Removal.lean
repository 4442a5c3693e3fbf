import Linguafranca.Nfstat.Apart
import Linguafranca.Nfstat.Soundness

/-!
# Whether a rule is removed by its own call

`rmvnfsrule` takes out the first rule on its descent that overlaps the argument. This is the
rule that was meant when every stored rule that overlaps the argument has its fields. A stored
rule is on its own descent as long as the rules that were added are aligned (`AlignedCall`).
-/

namespace Linguafranca.Nfstat

open SearchTree Wildcard Run

/-- What a rule says about one address: nothing, or a family and an address of it. -/
def NfsIpaddr.named (ip : NfsIpaddr) : UInt8 × List UInt8 :=
  (ip.len, if ip.len = 0 then [] else ip.addr.1.take (familySize ip.len))

/-- The fields of a rule that a packet is matched with. -/
structure MatchFields where
  protocol : UInt8
  dir : UInt8
  lport : UInt16
  rport : UInt16
  lip : UInt8 × List UInt8
  rip : UInt8 × List UInt8
deriving DecidableEq

/-- The fields of a rule that decide whether it fits a packet. -/
def NfsRule.matchFields (rule : NfsRule) : MatchFields :=
  ⟨rule.protocol, rule.dir, rule.lport, rule.rport, rule.lip.named, rule.rip.named⟩

/-- A removal that succeeds takes out one rule with the fields of its argument, and of a
stored rule it succeeds and leaves the others. A rule is stored when it was added and no call
has taken it out since. -/
structure RemovesOwn (rule : NfsRule) (rebalance : Rebalance NfsRule)
    (ruletree : BinaryTree NfsRule) : Prop where
  own : (rmvnfsrule rule rebalance ruletree).1 = true →
    ∃ gone, gone.matchFields = rule.matchFields ∧
      (inorder ruletree).Perm (gone :: inorder (rmvnfsrule rule rebalance ruletree).2)
  others : rule ∈ inorder ruletree → (rmvnfsrule rule rebalance ruletree).1 = true ∧
    (inorder ruletree).Perm (rule :: inorder (rmvnfsrule rule rebalance ruletree).2)

/-- A call that removes takes out its own rule. -/
def InverseCall (ruletree : BinaryTree NfsRule) : RuleCall → Prop
  | .add _ _ _ => True
  | .rmv rule rebalance => RemovesOwn rule rebalance ruletree

/-- The stored rules that overlap the one to remove have its fields. -/
def OverlapsOwn (ruletree : BinaryTree NfsRule) : RuleCall → Prop
  | .add _ _ _ => True
  | .rmv rule _ => ∀ stored ∈ inorder ruletree, rulecmp rule stored = 0 →
      stored.matchFields = rule.matchFields

/-- The rule to remove has a short tag and is aligned, as a rule to add would be. -/
def AlignedRemoval (ruletree : BinaryTree NfsRule) : RuleCall → Prop
  | .add _ _ _ => True
  | .rmv rule _ => rule.lip.len ≤ 16 ∧ rule.rip.len ≤ 16 ∧
      ∀ stored ∈ inorder ruletree, rulecmp rule stored = 0 ∨ Aligned rule.fields stored.fields

/-- The rules that were added and that no removal has named since: one that succeeds strikes
the rules with the fields of its argument. -/
def ledgerStep (ruletree : BinaryTree NfsRule) (call : RuleCall) (ledger : List NfsRule) :
    List NfsRule :=
  match call with
  | .add rule created rebalance =>
      if (addnfsrule rule created rebalance ruletree).1 then rule :: ledger else ledger
  | .rmv rule rebalance =>
      if (rmvnfsrule rule rebalance ruletree).1 then
        ledger.filter fun listed => listed.matchFields ≠ rule.matchFields
      else ledger

/-- Every rule in the ledger is stored. -/
def LedgerStored (both : BinaryTree NfsRule × List NfsRule) : Prop :=
  ∀ rule ∈ both.2, rule ∈ inorder both.1

section

variable {ruletree : BinaryTree NfsRule} {rule : NfsRule} {rebalance : Rebalance NfsRule}

theorem rulecmp_self (rule : NfsRule) : rulecmp rule rule = 0 := by
  apply rulecmp_eq_zero_iff_ties.mpr
  constructor
  · rfl
  · exact Or.inr (Or.inr rfl)
  · exact Or.inr (Or.inr rfl)
  · exact Or.inr (Or.inr rfl)
  · exact ipcmp_eq_zero_iff.mpr (Or.inr (Or.inr ⟨rfl, rfl⟩))
  · exact ipcmp_eq_zero_iff.mpr (Or.inr (Or.inr ⟨rfl, rfl⟩))

theorem rmvnfsrule_of_find {gone : NfsRule}
    (found : find (steerRule rule) ruletree = some gone) :
    (rmvnfsrule rule rebalance ruletree).1 = true ∧
      (inorder ruletree).Perm (gone :: inorder (rmvnfsrule rule rebalance ruletree).2) := by
  rcases split_of_find found with ⟨before, after, sequence, erased, -⟩
  simp only [rmvnfsrule, findnfsrule, found, Rebalance.inorder_apply, erased, sequence]
  exact ⟨trivial, List.perm_middle⟩

theorem find_of_rmvnfsrule (removed : (rmvnfsrule rule rebalance ruletree).1 = true) :
    ∃ gone, find (steerRule rule) ruletree = some gone := by
  simp only [rmvnfsrule, findnfsrule] at removed
  split at removed
  · simp at removed
  · next gone found => exact ⟨gone, found⟩

theorem gone_unique {first second : NfsRule} {before after : List NfsRule}
    (one : before.Perm (first :: after)) (other : before.Perm (second :: after)) :
    first = second := by
  have both : ([first] ++ after).Perm ([second] ++ after) := one.symm.trans other
  exact List.singleton_perm_singleton.mp ((List.perm_append_right_iff after).mp both)

/-! ## The ledger -/

theorem mem_addnfsrule_of_mem {stored : NfsRule} (created : Bool)
    (member : stored ∈ inorder ruletree) :
    stored ∈ inorder (addnfsrule rule created rebalance ruletree).2 := by
  simp only [addnfsrule]
  split
  · split
    · exact member
    · next linked success =>
        simp only [Rebalance.inorder_apply, mem_inorder_link success]
        exact Or.inr member
  · exact member

theorem mem_addnfsrule_self {created : Bool}
    (added : (addnfsrule rule created rebalance ruletree).1 = true) :
    rule ∈ inorder (addnfsrule rule created rebalance ruletree).2 := by
  simp only [addnfsrule] at added ⊢
  split at added
  · next allocated =>
      simp only [allocated, if_true]
      split at added
      · simp at added
      · next linked success =>
          simp [mem_inorder_link success]
  · simp at added

/-- A removal that takes out its own rule keeps every other one that is listed. -/
theorem ledgerStored_step (both : BinaryTree NfsRule × List NfsRule) (call : RuleCall)
    (stored : LedgerStored both) (inverse : InverseCall both.1 call) :
    LedgerStored (observe ruleStep ledgerStep both call) := by
  rcases both with ⟨ruletree, ledger⟩
  cases call with
  | add rule created rebalance =>
      intro listed member
      simp only [observe, ledgerStep] at member
      split at member
      · next added =>
          rcases List.mem_cons.mp member with rfl | old
          · exact mem_addnfsrule_self added
          · exact mem_addnfsrule_of_mem created (stored listed old)
      · exact mem_addnfsrule_of_mem created (stored listed member)
  | rmv rule rebalance =>
      intro listed member
      simp only [observe, ledgerStep] at member
      split at member
      · next succeeds =>
          rcases List.mem_filter.mp member with ⟨old, differs⟩
          rcases inverse.own succeeds with ⟨gone, same, left⟩
          rcases List.mem_cons.mp (left.subset (stored listed old)) with rfl | remains
          · simp [same] at differs
          · exact remains
      · next fails =>
          cases found : findnfsrule rule ruletree with
          | some gone => exact absurd (rmvnfsrule_of_find found).1 fails
          | none =>
              simp only [observe, ruleStep, rmvnfsrule, found]
              exact stored listed member

end

/-! ## Aligned rules -/

theorem Ranked.eq_of_overlap {rules : List NfsRule} (ranked : Ranked rules)
    {first second : NfsRule} (firstMem : first ∈ rules) (secondMem : second ∈ rules)
    (overlaps : rulecmp first second = 0) : first = second := by
  have apart : rules.Pairwise fun first second => rulecmp first second ≠ 0 := by
    apply List.Pairwise.imp _ ranked
    intro first second pair ties
    simp [rulecmp_eq_zero_iff, pair.2] at ties
  have either : Std.Symm fun first second : NfsRule => rulecmp first second ≠ 0 :=
    ⟨fun _ _ differ ties => differ (rulecmp_eq_zero_comm.mp ties)⟩
  by_contra differ
  exact apart.forall firstMem secondMem differ overlaps

/-- The descent for a stored rule does not pass it where the rules are aligned. -/
theorem mem_visited_of_ranked {ruletree : BinaryTree NfsRule} {rule : NfsRule}
    (ranked : Ranked (inorder ruletree)) (member : rule ∈ inorder ruletree) :
    rule ∈ visited (steerRule rule) ruletree := by
  have guides : Guides (steerRule rule) (inorder ruletree) := by
    apply ranked.guides
    intro tied tiedMem ties stored _ _
    obtain rfl := ranked.eq_of_overlap member tiedMem (rulecmp_eq_zero_iff.mpr ties)
    exact Or.inr rfl
  have stops := find_isSome_of_guides guides member (steerRule_eq_eq_iff.mpr (rulecmp_self rule))
  rcases Option.isSome_iff_exists.mp stops with ⟨gone, found⟩
  have overlaps := steerRule_eq_eq_iff.mp (dir_of_find found)
  obtain rfl := ranked.eq_of_overlap member (mem_of_find found) overlaps
  exact (find_eq_some_iff_visited.mp found).1

/-- Addresses that say the same are the same field. -/
theorem ipField_of_named {first second : NfsIpaddr} (same : first.named = second.named) :
    ipField first = ipField second := by
  have whole : ∀ ip : NfsIpaddr, ip.addr.1.take 16 = ip.addr.1 := fun ip =>
    List.take_of_length_le ip.addr.2.le
  simp only [NfsIpaddr.named, Prod.mk.injEq] at same
  rcases same with ⟨len, bytes⟩
  by_cases blank : second.len = 0
  · simp [ipField, len, blank]
  · rw [len, if_neg blank, if_neg blank, familySize] at bytes
    simp only [ipField, len, if_neg blank]
    split at bytes
    · next four =>
        have digits : second.len.toNat = 4 := by rw [four]; rfl
        rw [digits, bytes]
    · rw [whole, whole] at bytes
      rw [bytes]

theorem fields_of_matchFields {first second : NfsRule}
    (same : first.matchFields = second.matchFields) : first.fields = second.fields := by
  simp only [NfsRule.matchFields, MatchFields.mk.injEq] at same
  rcases same with ⟨protocol, dir, lport, rport, lip, rip⟩
  simp only [NfsRule.fields, protocol, dir, lport, rport, ipField_of_named lip,
    ipField_of_named rip]

theorem removesOwn_of_ranked {ruletree : BinaryTree NfsRule} {rule : NfsRule}
    (rebalance : Rebalance NfsRule) (ranked : Ranked (inorder ruletree))
    (own : ∀ stored ∈ inorder ruletree, rulecmp rule stored = 0 →
      stored.matchFields = rule.matchFields) : RemovesOwn rule rebalance ruletree where
  own := by
    intro succeeds
    rcases find_of_rmvnfsrule succeeds with ⟨gone, found⟩
    have overlaps := steerRule_eq_eq_iff.mp (dir_of_find found)
    exact ⟨gone, own gone (mem_of_find found) overlaps, (rmvnfsrule_of_find found).2⟩
  others := by
    intro member
    apply rmvnfsrule_of_find
    apply find_eq_some_iff_visited.mpr
    exact ⟨mem_visited_of_ranked ranked member, steerRule_eq_eq_iff.mpr (rulecmp_self rule)⟩

/-- The descent for an aligned rule stops at the one stored rule that overlaps it. -/
theorem RemovesOwn.matchFields {ruletree : BinaryTree NfsRule} {rule stored : NfsRule}
    {rebalance : Rebalance NfsRule} (removes : RemovesOwn rule rebalance ruletree)
    (ranked : Ranked (inorder ruletree))
    (allowed : ∀ stored ∈ inorder ruletree,
      rulecmp rule stored = 0 ∨ Aligned rule.fields stored.fields)
    (member : stored ∈ inorder ruletree) (overlaps : rulecmp rule stored = 0) :
    stored.matchFields = rule.matchFields := by
  have stops := link_eq_none_iff.mp (link_eq_none_of_overlap ranked allowed member overlaps)
  rcases Option.isSome_iff_exists.mp stops with ⟨gone, found⟩
  rcases @rmvnfsrule_of_find _ _ rebalance _ found with ⟨succeeds, left⟩
  rcases removes.own succeeds with ⟨taken, same, leftToo⟩
  obtain rfl := gone_unique left leftToo
  have goneOverlaps : rulecmp gone stored = 0 := by
    rw [rulecmp_eq_zero_iff, fields_of_matchFields same]
    exact rulecmp_eq_zero_iff.mp overlaps
  rw [← ranked.eq_of_overlap (mem_of_find found) member goneOverlaps]
  exact same

/-! ## Runs -/

/-- In a run that adds aligned rules only, adding and removing are inverse, and what was added
stays until its own removal, when every stored rule that overlaps the argument of a removal has
its fields. For removals that are aligned too this is exact. -/
theorem inverse_run_of_aligned (calls : List RuleCall)
    (aligned : Meets ruleStep AlignedCall .nil calls) :
    (Meets ruleStep OverlapsOwn .nil calls → Meets ruleStep InverseCall .nil calls ∧
      Always (observe ruleStep ledgerStep) LedgerStored (.nil, []) calls) ∧
    (Meets ruleStep AlignedRemoval .nil calls → Meets ruleStep InverseCall .nil calls →
      Meets ruleStep OverlapsOwn .nil calls) := by
  have empty : Ranked (inorder (.nil : BinaryTree NfsRule)) := by simp [Ranked]
  constructor
  · intro own
    have inverse : Meets ruleStep InverseCall .nil calls := by
      apply @meets_of_invariant _ _ _ _ (fun ruletree => Ranked (inorder ruletree)) _ _ _ _ _
        empty (meets_and aligned own)
      · intro ruletree call ranked both
        exact ranked_ruleStep ruletree call ranked both.1
      · rintro ruletree call ranked ⟨-, fits⟩
        cases call with
        | add rule created rebalance => trivial
        | rmv rule rebalance => exact removesOwn_of_ranked rebalance ranked fits
    refine ⟨inverse, ?_⟩
    apply always_of_invariant ledgerStored_step (fun _ stored => stored)
    · simp [LedgerStored]
    · exact (meets_observe_iff []).mpr inverse
  · intro removals inverse
    apply @meets_of_invariant _ _ _ _ (fun ruletree => Ranked (inorder ruletree)) _ _ _ _ _
      empty (meets_and aligned (meets_and removals inverse))
    · intro ruletree call ranked all
      exact ranked_ruleStep ruletree call ranked all.1
    · rintro ruletree call ranked ⟨-, allowed, removes⟩
      cases call with
      | add rule created rebalance => trivial
      | rmv rule rebalance =>
          intro stored member overlaps
          exact removes.matchFields ranked allowed.2.2 member overlaps

/-- Two rules are added, the first one removed, and a rule removed that no stored one
overlaps. -/
def ownRemovals : List RuleCall :=
  [.add (tcpPortsRule 80 0 1) true .none, .add (tcpPortsRule 443 0 2) true .none,
    .rmv (tcpPortsRule 80 0 1) .none, .rmv (tcpPortsRule 22 0 1) .none]

theorem ownRemovals_inverse : Meets ruleStep InverseCall .nil ownRemovals ∧
    Always (observe ruleStep ledgerStep) LedgerStored (.nil, []) ownRemovals := by
  have aligned : Meets ruleStep AlignedCall .nil ownRemovals := by
    refine ⟨⟨?_, ?_, ?_⟩, ⟨?_, ?_, ?_⟩, trivial, trivial, trivial⟩ <;> decide
  apply (inverse_run_of_aligned ownRemovals aligned).1
  refine ⟨trivial, trivial, ?_, ?_, trivial⟩ <;> simp only [OverlapsOwn] <;> decide

/-- The rule for every TCP packet was never added; its removal takes out the one for port 80. -/
def wideRemoval : List RuleCall :=
  [.add (tcpPortsRule 80 0 1) true .none, .rmv (tcpPortsRule 0 0 1) .none]

theorem wideRemoval_not_inverse : ¬(Meets ruleStep InverseCall .nil wideRemoval ∧
    Always (observe ruleStep ledgerStep) LedgerStored (.nil, []) wideRemoval) := by
  rintro ⟨⟨-, removes, -⟩, -⟩
  rcases removes.own (by decide) with ⟨gone, same, left⟩
  have stored : gone = tcpPortsRule 80 0 1 := by
    apply List.mem_singleton.mp
    exact left.symm.subset List.mem_cons_self
  subst stored
  exact absurd same (by decide)

end Linguafranca.Nfstat
