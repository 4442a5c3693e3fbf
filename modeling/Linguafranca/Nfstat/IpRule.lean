import Linguafranca.Nfstat.Nfs
import Linguafranca.Support.SearchTree
import Linguafranca.Support.Wildcard

/-!
# The rule tree

The rules of `ip_rule.c` stand in a red-black tree that is searched by `rulecmp`, which
compares field by field and treats a field that one of the two rules does not care about
as equal. `compare_rulecmp` reads it as the comparison with wildcards of
`Linguafranca.Support.Wildcard`.

A tree node is modelled by the rule it holds; its name in `/proc` plays no part in the
search. `create` may fail for lack of memory, and the rebalancing of `rb_insert_color` and
`rb_erase` may choose any shape with the same sequence of nodes: both are arguments.
-/

namespace Linguafranca.Nfstat

open SearchTree Wildcard

/-- `portcmp`: a zero on either side is equal to every port. -/
def portcmp (src dst : UInt16) : Int :=
  if src ≠ 0 ∧ dst ≠ 0 then
    if src > dst then 1
    else if src < dst then -1
    else 0
  else 0

/-- Compare two addresses by tag and then by as many bytes as the tag says. A tag above
16 reaches past the array; this function reads the sixteen bytes only, and `ipcmpBytes`
says which bytes the code reads. -/
def ipcmp (src dst : NfsIpaddr) : Int :=
  if src.len ≠ 0 ∧ dst.len ≠ 0 then
    if src.len > dst.len then 1
    else if src.len < dst.len then -1
    else Bytes.memcmp (src.addr.1.take src.len.toNat) (dst.addr.1.take src.len.toNat)
  else 0

/-- `rulecmp`: the fields in turn, of which direction, ports and addresses have wildcards. -/
def rulecmp (src dst : NfsRule) : Int :=
  if src.protocol > dst.protocol then 1
  else if src.protocol < dst.protocol then -1
  else if src.dir ≠ nfsAll ∧ dst.dir ≠ nfsAll ∧ src.dir > dst.dir then 1
  else if src.dir ≠ nfsAll ∧ dst.dir ≠ nfsAll ∧ src.dir < dst.dir then -1
  else if portcmp src.lport dst.lport ≠ 0 then portcmp src.lport dst.lport
  else if portcmp src.rport dst.rport ≠ 0 then portcmp src.rport dst.rport
  else if ipcmp src.lip dst.lip ≠ 0 then ipcmp src.lip dst.lip
  else if ipcmp src.rip dst.rip ≠ 0 then ipcmp src.rip dst.rip
  else 0

/-- The way the descent for a rule takes at a stored rule: `ret < 0` leads to the left. -/
def steerRule (rule entry : NfsRule) : Ordering :=
  cmp (rulecmp rule entry) 0

/-- `findnfsrule`: the descent for a rule. -/
def findnfsrule (rule : NfsRule) (ruletree : BinaryTree NfsRule) : Option NfsRule :=
  find (steerRule rule) ruletree

/-- The type of the rule found for the argument, or -1. -/
def getTypeidx (ruletree : BinaryTree NfsRule) (rule : NfsRule) : Int :=
  match findnfsrule rule ruletree with
  | none => -1
  | some entry => entry.typeidx.toNat

/-- `addnfsrule`: the rule is linked where its descent ends, unless it stops at a rule. -/
def addnfsrule (rule : NfsRule) (created : Bool) (rebalance : Rebalance NfsRule)
    (ruletree : BinaryTree NfsRule) : Bool × BinaryTree NfsRule :=
  if created then
    match link (steerRule rule) rule ruletree with
    | none => (false, ruletree)
    | some linked => (true, rebalance.apply linked)
  else (false, ruletree)

/-- `rmvnfsrule`: the rule at which the descent stops is erased. -/
def rmvnfsrule (rule : NfsRule) (rebalance : Rebalance NfsRule)
    (ruletree : BinaryTree NfsRule) : Bool × BinaryTree NfsRule :=
  match findnfsrule rule ruletree with
  | none => (false, ruletree)
  | some _ => (true, rebalance.apply (erase (steerRule rule) ruletree))

/-! ## The comparison as one with wildcards -/

/-- A numeric field of which zero means that it does not matter. -/
def wildcardField (n : ℕ) : Option ℕ :=
  if n = 0 then none else some n

/-- An address as a field: the tag as the highest digit, then the bytes it covers. -/
def ipField (ip : NfsIpaddr) : Option ℕ :=
  if ip.len = 0 then none
  else some (ip.len.toNat * 256 ^ 16 + Bytes.value (ip.addr.1.take ip.len.toNat))

/-- The fields of a rule in the order in which `rulecmp` compares them. -/
def NfsRule.fields (rule : NfsRule) : List (Option ℕ) :=
  [some rule.protocol.toNat, wildcardField rule.dir.toNat, wildcardField rule.lport.toNat,
    wildcardField rule.rport.toNat, ipField rule.lip, ipField rule.rip]

@[simp]
theorem NfsRule.length_fields (rule : NfsRule) : rule.fields.length = 6 :=
  rfl

theorem cmp_first_nonzero (first rest : Int) :
    cmp (if first ≠ 0 then first else rest) 0 = (cmp first 0).then (cmp rest 0) := by
  split
  · next some => rw [cmp_then_of_ne some]
  · next none => simp [not_not.mp none]

/-- Comparing numbers by an `if` chain. -/
theorem cmp_sign {m n : ℕ} (rest : Int) :
    cmp (if m > n then 1 else if m < n then -1 else rest) (0 : Int) =
      (cmp m n).then (cmp rest 0) := by
  rcases lt_trichotomy m n with lower | rfl | higher
  · rw [if_neg (by omega), if_pos lower, (cmp_eq_lt_iff m n).mpr lower]
    rfl
  · simp
  · rw [if_pos higher, (cmp_eq_gt_iff m n).mpr higher]
    rfl

/-- A comparison of one field in which zero on either side ties. -/
theorem compareFields_wildcardField (m n : ℕ) (xs ys : List (Option ℕ)) :
    compareFields (wildcardField m :: xs) (wildcardField n :: ys) =
      (if m ≠ 0 ∧ n ≠ 0 then cmp m n else .eq).then (compareFields xs ys) := by
  by_cases zeroM : m = 0
  · simp [wildcardField, zeroM]
  · by_cases zeroN : n = 0
    · simp [wildcardField, zeroN]
    · simp [wildcardField, zeroM, zeroN]

theorem cmp_portcmp (src dst : UInt16) :
    cmp (portcmp src dst) 0 =
      if src.toNat ≠ 0 ∧ dst.toNat ≠ 0 then cmp src.toNat dst.toNat else .eq := by
  have zero : ∀ port : UInt16, port ≠ 0 ↔ port.toNat ≠ 0 := fun port => by
    rw [ne_eq, ← UInt16.toNat_inj]
    rfl
  simp only [portcmp, zero, gt_iff_lt, UInt16.lt_iff_toNat_lt]
  split
  · rw [cmp_sign]
    simp
  · simp

theorem cmp_ipcmp (src dst : NfsIpaddr) (xs ys : List (Option ℕ)) :
    compareFields (ipField src :: xs) (ipField dst :: ys) =
      (cmp (ipcmp src dst) 0).then (compareFields xs ys) := by
  by_cases zeroSrc : src.len = 0
  · simp [ipField, ipcmp, zeroSrc]
  · by_cases zeroDst : dst.len = 0
    · simp [ipField, ipcmp, zeroDst]
    · have srcBound := Bytes.value_lt (src.addr.1.take src.len.toNat)
      have dstBound := Bytes.value_lt (dst.addr.1.take dst.len.toNat)
      have room : ∀ (ip : NfsIpaddr) (n : ℕ), 256 ^ (ip.addr.1.take n).length ≤ 256 ^ 16 :=
        fun ip n => Nat.pow_le_pow_right (by omega) (by
          rw [List.length_take, ip.addr.2]
          omega)
      have srcRoom := srcBound.trans_le (room src _)
      have dstRoom := dstBound.trans_le (room dst _)
      simp only [ipField, ipcmp, zeroSrc, zeroDst, if_false, compareFields_some, ne_eq,
        not_false_eq_true, and_self, if_true, gt_iff_lt, UInt8.lt_iff_toNat_lt]
      congr 1
      rw [cmp_sign]
      rcases lt_trichotomy src.len.toNat dst.len.toNat with lower | same | higher
      · rw [(cmp_eq_lt_iff _ _).mpr lower]
        have scaled := Nat.mul_le_mul_right (256 ^ 16) lower
        simp only [Nat.succ_mul] at scaled
        rw [Ordering.lt_then, cmp_eq_lt_iff]
        omega
      · rw [Bytes.cmp_memcmp _ _ (by simp [src.addr.2, dst.addr.2]), same]
        simp only [cmp_self_eq_eq, Ordering.eq_then]
        rcases lt_trichotomy (Bytes.value (src.addr.1.take dst.len.toNat))
          (Bytes.value (dst.addr.1.take dst.len.toNat)) with below | equal | above
        · rw [(cmp_eq_lt_iff _ _).mpr below, cmp_eq_lt_iff]
          omega
        · simp [equal]
        · rw [(cmp_eq_gt_iff _ _).mpr above, cmp_eq_gt_iff]
          omega
      · rw [(cmp_eq_gt_iff _ _).mpr higher]
        have scaled := Nat.mul_le_mul_right (256 ^ 16) higher
        simp only [Nat.succ_mul] at scaled
        rw [Ordering.gt_then, cmp_eq_gt_iff]
        omega

/-- `rulecmp` is the comparison of the fields with wildcards. -/
theorem steerRule_eq_compareFields (src dst : NfsRule) :
    steerRule src dst = compareFields src.fields dst.fields := by
  have zero : ∀ dir : UInt8, dir ≠ nfsAll ↔ dir.toNat ≠ 0 := fun dir => by
    rw [ne_eq, ← UInt8.toNat_inj]
    rfl
  have dirs : ∀ rest : Int,
      cmp (if src.dir ≠ nfsAll ∧ dst.dir ≠ nfsAll ∧ src.dir > dst.dir then 1
        else if src.dir ≠ nfsAll ∧ dst.dir ≠ nfsAll ∧ src.dir < dst.dir then -1 else rest) 0 =
      (if src.dir.toNat ≠ 0 ∧ dst.dir.toNat ≠ 0 then cmp src.dir.toNat dst.dir.toNat
        else .eq).then (cmp rest 0) := by
    intro rest
    simp only [zero, gt_iff_lt, UInt8.lt_iff_toNat_lt]
    by_cases cares : src.dir.toNat ≠ 0 ∧ dst.dir.toNat ≠ 0
    · simp only [cares, ne_eq, not_false_eq_true, true_and, and_self, if_true]
      exact cmp_sign rest
    · rw [if_neg (fun both => cares ⟨both.1, both.2.1⟩),
        if_neg (fun both => cares ⟨both.1, both.2.1⟩), if_neg cares]
      rfl
  simp only [steerRule, rulecmp, NfsRule.fields, compareFields_some, compareFields_wildcardField,
    cmp_ipcmp, gt_iff_lt, UInt8.lt_iff_toNat_lt]
  rw [cmp_sign]
  simp only [gt_iff_lt, UInt8.lt_iff_toNat_lt] at dirs
  rw [dirs]
  simp only [cmp_first_nonzero, cmp_portcmp, cmp_self_eq_eq, compareFields_nil]

end Linguafranca.Nfstat
