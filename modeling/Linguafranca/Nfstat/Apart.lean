import Linguafranca.Nfstat.Overlap

/-!
# Whether the stored rules overlap

`addnfsrule` refuses a rule only when its descent meets a stored one that overlaps it. As a
wildcard ties on the way down whatever side the other rules are on, the descent may pass one
that overlaps; from then on the rules are no longer told apart. Rules with their wildcards in
the same fields are always met, and as long as each new rule is aligned with the stored ones
(`AlignedCall`) a rule is refused exactly when one of them overlaps it.

The tags of the rules that are added are at most 16 there. `ipcmp` compares as many bytes as
two equal tags say, so that with a rule of a longer tag it would read past the arrays; an
argument of `rmvnfsrule` with such a tag has it in common with no stored rule.
-/

namespace Linguafranca.Nfstat

open SearchTree Wildcard Run

/-- Some stored rule overlaps the rule. -/
def Overlapped (rule : NfsRule) (ruletree : BinaryTree NfsRule) : Prop :=
  ∃ stored ∈ inorder ruletree, rulecmp rule stored = 0

instance (rule : NfsRule) (ruletree : BinaryTree NfsRule) : Decidable (Overlapped rule ruletree) :=
  inferInstanceAs (Decidable (∃ stored ∈ inorder ruletree, rulecmp rule stored = 0))

/-- A rule is added exactly when no stored one overlaps it. -/
def AddsExactly (ruletree : BinaryTree NfsRule) : RuleCall → Prop
  | .add rule created rebalance =>
      (addnfsrule rule created rebalance ruletree).1 = true ↔ ¬Overlapped rule ruletree
  | .rmv _ _ => True

/-- A packet that came with a device and has ports. -/
structure TellingKey (key : NfsRule) : Prop where
  packet : PacketKey key
  dir : key.dir ≠ nfsAll
  lport : key.lport ≠ 0
  rport : key.rport ≠ 0

/-- No two stored rules overlap, and no packet matches two of them. -/
structure StoresApart (ruletree : BinaryTree NfsRule) : Prop where
  apart : (inorder ruletree).Pairwise fun first second => rulecmp first second ≠ 0
  one : ∀ key, TellingKey key →
    ((inorder ruletree).filter fun stored => rulecmp key stored = 0).length ≤ 1

/-- There is memory for a rule that none of the stored ones overlaps. -/
def MemoryForNew (ruletree : BinaryTree NfsRule) : RuleCall → Prop
  | .add rule created _ => ¬Overlapped rule ruletree → created = true
  | .rmv _ _ => True

instance (ruletree : BinaryTree NfsRule) (call : RuleCall) :
    Decidable (MemoryForNew ruletree call) :=
  match call with
  | .add rule created _ => inferInstanceAs (Decidable (¬Overlapped rule ruletree → created = true))
  | .rmv _ _ => inferInstanceAs (Decidable True)

section

variable {ruletree : BinaryTree NfsRule} {rule : NfsRule} {rules : List NfsRule}

theorem steerRule_eq_eq_iff {entry : NfsRule} :
    steerRule rule entry = .eq ↔ rulecmp rule entry = 0 :=
  cmp_eq_eq_iff _ _

/-- Of aligned rules, one is added when it gets memory and none overlaps it. -/
theorem addnfsrule_iff_of_ranked (ranked : Ranked (inorder ruletree))
    (allowed : ∀ stored ∈ inorder ruletree,
      rulecmp rule stored = 0 ∨ Aligned rule.fields stored.fields)
    (created : Bool) (rebalance : Rebalance NfsRule) :
    (addnfsrule rule created rebalance ruletree).1 = true ↔
      created = true ∧ ¬Overlapped rule ruletree := by
  have blocked : link (steerRule rule) rule ruletree = none ↔ Overlapped rule ruletree := by
    constructor
    · intro refused
      rcases Option.isSome_iff_exists.mp (link_eq_none_iff.mp refused) with ⟨stored, found⟩
      exact ⟨stored, mem_of_find found, steerRule_eq_eq_iff.mp (dir_of_find found)⟩
    · rintro ⟨stored, member, ties⟩
      exact link_eq_none_of_overlap ranked allowed member ties
  rw [← blocked, addnfsrule]
  cases created with
  | false => simp
  | true =>
      cases link (steerRule rule) rule ruletree with
      | none => simp
      | some linked => simp

theorem addsExactly_iff_of_ranked (ranked : Ranked (inorder ruletree)) {call : RuleCall}
    (allowed : AlignedCall ruletree call) :
    AddsExactly ruletree call ↔ MemoryForNew ruletree call := by
  cases call with
  | rmv rule rebalance => exact Iff.rfl
  | add rule created rebalance =>
      simp only [AddsExactly, MemoryForNew, addnfsrule_iff_of_ranked ranked allowed.2.2]
      exact and_iff_right_iff_imp

/-! ## Rules that are apart -/

theorem rulecmp_eq_zero_comm {first second : NfsRule} :
    rulecmp first second = 0 ↔ rulecmp second first = 0 := by
  simp only [rulecmp_eq_zero_iff, ← compareFields_swap second.fields first.fields]
  cases compareFields second.fields first.fields <;> simp

theorem TellingKey.overlap {key first second : NfsRule} (telling : TellingKey key)
    (tiesFirst : rulecmp key first = 0) (tiesSecond : rulecmp key second = 0) :
    rulecmp first second = 0 := by
  rw [rulecmp_eq_zero_iff] at tiesFirst tiesSecond ⊢
  apply compareFields_eq_of_full _ _ _ tiesFirst tiesSecond
  · exact full_fields_of_packetKey telling.packet telling.lport telling.rport telling.dir
  · rfl
  · rfl

theorem storesApart_of_pairwise
    (apart : (inorder ruletree).Pairwise fun first second => rulecmp first second ≠ 0) :
    StoresApart ruletree := by
  refine ⟨apart, ?_⟩
  intro key telling
  have matching : ∀ stored ∈ (inorder ruletree).filter fun stored => rulecmp key stored = 0,
      rulecmp key stored = 0 := by
    intro stored member
    simpa using (List.mem_filter.mp member).2
  have rest := apart.filter fun stored => decide (rulecmp key stored = 0)
  generalize (inorder ruletree).filter (fun stored => decide (rulecmp key stored = 0)) = found
    at matching rest ⊢
  match found with
  | [] => simp
  | [_] => simp
  | first :: second :: others =>
      apply absurd _ ((List.pairwise_cons.mp rest).1 second List.mem_cons_self)
      exact telling.overlap (matching first List.mem_cons_self)
        (matching second (List.mem_cons_of_mem first List.mem_cons_self))

theorem storesApart_step (stores : StoresApart ruletree) (call : RuleCall)
    (exactly : AddsExactly ruletree call) : StoresApart (ruleStep ruletree call) := by
  apply storesApart_of_pairwise
  cases call with
  | rmv rule rebalance =>
      simp only [ruleStep, rmvnfsrule]
      split
      · exact stores.apart
      · simp only [Rebalance.inorder_apply]
        exact stores.apart.sublist (inorder_erase_sublist ruletree)
  | add rule created rebalance =>
      simp only [AddsExactly, addnfsrule] at exactly
      simp only [ruleStep, addnfsrule]
      split
      · next allocated =>
          cases success : link (steerRule rule) rule ruletree with
          | none => exact stores.apart
          | some linked =>
              simp only [allocated, success, if_true, true_iff] at exactly
              have fresh : ∀ stored ∈ inorder ruletree, rulecmp rule stored ≠ 0 := by
                intro stored member ties
                exact exactly ⟨stored, member, ties⟩
              rcases split_of_link success with ⟨before, after, sequence, placed⟩
              have apart := stores.apart
              rw [sequence] at apart fresh
              simp only [Rebalance.inorder_apply, placed]
              simp only [List.pairwise_append, List.pairwise_cons, List.mem_cons] at apart ⊢
              refine ⟨apart.1, ⟨?_, apart.2.1⟩, ?_⟩
              · intro stored member
                exact fresh stored (List.mem_append_right before member)
              · rintro stored member other (rfl | later)
                · rw [ne_eq, rulecmp_eq_zero_comm]
                  exact fresh stored (List.mem_append_left after member)
                · exact apart.2.2 stored member other later
      · exact stores.apart

end

/-! ## Runs -/

/-- In a run that adds aligned rules only, every rule is added exactly when none overlaps it,
and the stored rules stay apart, as long as there is memory for the new ones. -/
theorem storesApart_run_iff (calls : List RuleCall)
    (aligned : Meets ruleStep AlignedCall .nil calls) :
    (Meets ruleStep AddsExactly .nil calls ∧ Always ruleStep StoresApart .nil calls) ↔
      Meets ruleStep MemoryForNew .nil calls := by
  have ranked : Ranked (inorder (.nil : BinaryTree NfsRule)) := by simp [Ranked]
  have empty : StoresApart (.nil : BinaryTree NfsRule) := storesApart_of_pairwise (by simp)
  constructor
  · rintro ⟨adds, -⟩
    apply @meets_of_invariant _ _ _ _ (fun ruletree => Ranked (inorder ruletree)) _ _ _ _ _ ranked
      (meets_and aligned adds)
    · intro ruletree call ranked both
      exact ranked_ruleStep ruletree call ranked both.1
    · rintro ruletree call ranked ⟨allowed, exactly⟩
      exact (addsExactly_iff_of_ranked ranked allowed).mp exactly
  · intro memory
    have adds : Meets ruleStep AddsExactly .nil calls := by
      apply @meets_of_invariant _ _ _ _ (fun ruletree => Ranked (inorder ruletree)) _ _ _ _ _
        ranked (meets_and aligned memory)
      · intro ruletree call ranked both
        exact ranked_ruleStep ruletree call ranked both.1
      · rintro ruletree call ranked ⟨allowed, room⟩
        exact (addsExactly_iff_of_ranked ranked allowed).mpr room
    refine ⟨adds, ?_⟩
    apply always_of_invariant _ (fun _ stores => stores) empty adds
    intro ruletree call stores exactly
    exact storesApart_step stores call exactly

/-- A second rule for local port 10 is refused until the first one is removed. -/
def alignedCalls : List RuleCall :=
  [.add (tcpPortsRule 10 0 0) true .none, .add (tcpPortsRule 20 0 1) true .none,
    .add (tcpPortsRule 10 0 2) true .none, .rmv (tcpPortsRule 10 0 0) .none,
    .add (tcpPortsRule 10 0 2) true .none]

theorem alignedCalls_aligned : Meets ruleStep AlignedCall .nil alignedCalls := by
  refine ⟨⟨?_, ?_, ?_⟩, ⟨?_, ?_, ?_⟩, ⟨?_, ?_, ?_⟩, trivial, ⟨?_, ?_, ?_⟩, trivial⟩ <;> decide

theorem alignedCalls_apart : Meets ruleStep AddsExactly .nil alignedCalls ∧
    Always ruleStep StoresApart .nil alignedCalls := by
  apply (storesApart_run_iff alignedCalls alignedCalls_aligned).mpr
  refine ⟨?_, ?_, ?_, ?_, ?_, trivial⟩ <;> decide

/-- The rule for local port 20 overlaps the second one and goes right of the first. -/
def passedCalls : List RuleCall :=
  [.add (tcpPortsRule 10 5 0) true .none, .add (tcpPortsRule 0 3 1) true .none,
    .add (tcpPortsRule 20 3 2) true .none]

theorem passedCalls_overlap : ¬(Meets ruleStep AddsExactly .nil passedCalls ∧
    Always ruleStep StoresApart .nil passedCalls) := by
  rintro ⟨⟨-, -, adds, -⟩, -⟩
  exact adds.mp (by decide) (by decide)

end Linguafranca.Nfstat
