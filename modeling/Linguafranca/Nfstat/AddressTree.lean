import Linguafranca.Nfstat.IpCounter
import Linguafranca.Support.Run

/-!
# The counter tree as a search tree

`addipentry` places a new entry by the address the user passed but stores a normalised
copy, which is never above it. The stored addresses stay strictly increasing exactly when
no stored address lies between the two (`ClearCall`); with bytes behind the tagged length
or in the padding the same address can even be stored twice. An address that is its own
normalised copy has nothing between and is always safe.
-/

namespace Linguafranca.Nfstat

open SearchTree Run

/-- The calls that edit the counter tree. -/
inductive AddrCall where
  | add (ip : NfsIpaddr) (created : Bool) (rebalance : Rebalance IpCounterEntry)
  | rmv (ip : NfsIpaddr) (rebalance : Rebalance IpCounterEntry)

/-- The address of a call. -/
def AddrCall.ip : AddrCall → NfsIpaddr
  | .add ip _ _ => ip
  | .rmv ip _ => ip

/-- The tree after a call. -/
def addrStep (maxtype : UInt8) (iptree : BinaryTree IpCounterEntry) :
    AddrCall → BinaryTree IpCounterEntry
  | .add ip created rebalance => (addipentry maxtype ip created rebalance iptree).2
  | .rmv ip rebalance => (rmvipentry ip rebalance iptree).2

/-- Nothing stored lies between the copy of a new address and the address itself. -/
def Clear (ip : NfsIpaddr) (iptree : BinaryTree IpCounterEntry) : Prop :=
  ∀ stored ∈ inorder iptree, stored.ip.key < ip.key → stored.ip.key < (storedIp ip).key

/-- An address that is really added must be clear. -/
def ClearCall (iptree : BinaryTree IpCounterEntry) : AddrCall → Prop
  | .add ip created _ => created → ip.len ≠ 0 →
      (∀ stored ∈ inorder iptree, stored.ip ≠ ip) → Clear ip iptree
  | .rmv _ _ => True

/-- The key of an entry is that of its address. -/
def entryKey (entry : IpCounterEntry) : ℕ :=
  entry.ip.key

/-- The addresses strictly increase under `memcmp`, none is stored twice, and each is
found. -/
def IsSearchTree (iptree : BinaryTree IpCounterEntry) : Prop :=
  (inorder iptree).Pairwise (fun first second =>
      Bytes.memcmp first.ip.toBytes second.ip.toBytes < 0) ∧
    ((inorder iptree).map IpCounterEntry.ip).Nodup ∧
    ∀ entry ∈ inorder iptree, findipentry entry.ip iptree = some entry

theorem memcmp_neg_iff (first second : NfsIpaddr) :
    Bytes.memcmp first.toBytes second.toBytes < 0 ↔ first.key < second.key := by
  have order := Bytes.cmp_memcmp first.toBytes second.toBytes (by simp)
  rw [← cmp_eq_lt_iff, order, cmp_eq_lt_iff]
  rfl

theorem findipentry_eq_some_iff {iptree : BinaryTree IpCounterEntry} {ip : NfsIpaddr}
    {entry : IpCounterEntry} (sorted : Sorted entryKey (inorder iptree)) :
    findipentry ip iptree = some entry ↔ entry ∈ inorder iptree ∧ entry.ip = ip := by
  rw [findipentry, steerIp_eq]
  refine (find_eq_some_iff sorted).trans (and_congr_right fun _ => ?_)
  exact ⟨NfsIpaddr.key_injective, congrArg NfsIpaddr.key⟩

theorem findipentry_eq_none_iff {iptree : BinaryTree IpCounterEntry} {ip : NfsIpaddr}
    (sorted : Sorted entryKey (inorder iptree)) :
    findipentry ip iptree = none ↔ ∀ stored ∈ inorder iptree, stored.ip ≠ ip := by
  rw [findipentry, steerIp_eq]
  refine (find_eq_none_iff sorted).trans (forall₂_congr fun stored _ => ?_)
  exact not_congr ⟨NfsIpaddr.key_injective, congrArg NfsIpaddr.key⟩

theorem isSearchTree_iff_sorted {iptree : BinaryTree IpCounterEntry} :
    IsSearchTree iptree ↔ Sorted entryKey (inorder iptree) := by
  constructor
  · intro searchTree
    exact searchTree.1.imp fun lower => (memcmp_neg_iff _ _).mp lower
  · intro sorted
    refine ⟨sorted.imp fun lower => (memcmp_neg_iff _ _).mpr lower, ?_, ?_⟩
    · apply List.pairwise_map.mpr
      apply sorted.imp
      intro first second lower same
      exact lower.ne (congrArg NfsIpaddr.key same)
    · intro entry member
      exact (findipentry_eq_some_iff sorted).mpr ⟨member, rfl⟩

theorem sorted_addipentry_iff (maxtype : UInt8) {ip : NfsIpaddr} {created : Bool}
    {rebalance : Rebalance IpCounterEntry} {iptree : BinaryTree IpCounterEntry}
    (sorted : Sorted entryKey (inorder iptree)) :
    Sorted entryKey (inorder (addipentry maxtype ip created rebalance iptree).2) ↔
      ClearCall iptree (.add ip created rebalance) := by
  simp only [addipentry, ClearCall]
  by_cases empty : ip.len = 0
  · simp [empty, sorted]
  · cases created with
    | false => simp [empty, sorted]
    | true =>
        simp only [empty, if_false, if_true, ne_eq, not_false_eq_true, forall_const]
        rw [← findipentry_eq_none_iff sorted]
        cases success : link (steerIp ip) (newIpEntry maxtype ip) iptree with
        | none =>
            have found := link_eq_none_iff.mp success
            have present : findipentry ip iptree ≠ none := by
              rw [findipentry, ← Option.isSome_iff_ne_none]
              exact found
            simp [sorted, present]
        | some linked =>
            have missing : findipentry ip iptree = none := by
              by_contra present
              have refused : link (steerIp ip) (newIpEntry maxtype ip) iptree = none :=
                link_eq_none_iff.mpr (Option.isSome_iff_ne_none.mpr present)
              simp [success] at refused
            simp only [Rebalance.inorder_apply, missing, forall_const]
            rw [steerIp_eq] at success
            have below : entryKey (newIpEntry maxtype ip) ≤ ip.key := by
              simp only [entryKey, newIpEntry_ip]
              exact key_storedIp_le ip
            apply (sorted_link_iff sorted below success).trans
            simp only [entryKey, newIpEntry_ip, Clear]

theorem sorted_rmvipentry (ip : NfsIpaddr) (rebalance : Rebalance IpCounterEntry)
    {iptree : BinaryTree IpCounterEntry} (sorted : Sorted entryKey (inorder iptree)) :
    Sorted entryKey (inorder (rmvipentry ip rebalance iptree).2) := by
  simp only [rmvipentry]
  split
  · exact sorted
  · rw [Rebalance.inorder_apply]
    exact sorted_of_inorder_sublist sorted (inorder_erase_sublist iptree)

theorem isSearchTree_addrStep_iff (maxtype : UInt8) (iptree : BinaryTree IpCounterEntry)
    (call : AddrCall) (searchTree : IsSearchTree iptree) :
    IsSearchTree (addrStep maxtype iptree call) ↔ ClearCall iptree call := by
  rw [isSearchTree_iff_sorted] at searchTree ⊢
  cases call with
  | add ip created rebalance => exact sorted_addipentry_iff maxtype searchTree
  | rmv ip rebalance => simp [addrStep, ClearCall, sorted_rmvipentry ip rebalance searchTree]

/-- The tree is a search tree throughout a sequence of calls exactly when every call of the
sequence is clear. -/
theorem isSearchTree_always_iff (maxtype : UInt8) (calls : List AddrCall) :
    Always (addrStep maxtype) IsSearchTree .nil calls ↔
      Meets (addrStep maxtype) ClearCall .nil calls := by
  apply always_iff_meets (isSearchTree_addrStep_iff maxtype)
  exact isSearchTree_iff_sorted.mpr List.Pairwise.nil

/-- 10.0.0.1 with a stray byte behind it. -/
def strayIp : NfsIpaddr :=
  ⟨4, Bytes.zero 3, ⟨[10, 0, 0, 1, 7, 0, 0, 0, 0, 0, 0, 0, 0, 0, 0, 0], rfl⟩⟩

/-- Adding `strayIp` twice stores 10.0.0.1 twice. -/
theorem isSearchTree_fails_for_strayIp :
    ¬∀ (maxtype : UInt8) (calls : List AddrCall),
      (∀ call ∈ calls, 1 ≤ call.ip.len ∧ call.ip.len ≤ 16) →
        Always (addrStep maxtype) IsSearchTree .nil calls := by
  intro always
  have twice := always 1 [.add strayIp true .none, .add strayIp true .none] (by decide)
  have searchTree := twice.2.2
  have increasing := searchTree.1
  revert increasing
  decide

/-! ## Normalised addresses -/

theorem clear_of_storedIp_eq {ip : NfsIpaddr} (normal : storedIp ip = ip)
    (iptree : BinaryTree IpCounterEntry) : Clear ip iptree := by
  intro stored _ lower
  rwa [normal]

/-- An address is its own stored copy when its padding and the bytes behind the tagged
length are zero. -/
theorem storedIp_eq_self_iff {ip : NfsIpaddr} :
    storedIp ip = ip ↔
      ip.padding = Bytes.zero 3 ∧ ∀ byte ∈ ip.addr.1.drop ip.len.toNat, byte = 0 := by
  rcases ip with ⟨len, padding, addr⟩
  simp only [storedIp, NfsIpaddr.mk.injEq, true_and, Bytes.memcpy_zero_eq_self_iff]
  exact and_congr eq_comm Iff.rfl

end Linguafranca.Nfstat
