import Mathlib.Data.UInt
import Mathlib.Order.Compare
import Mathlib.Tactic.Linarith

/-!
# Byte arrays of a fixed length

`Bytes n` is an array of `n` bytes. `memcmp` and `memcpy` are the C functions on such
arrays: `memcmp` returns the difference at the first position where the arrays differ
and `memcpy` overwrites a prefix. On arrays of one length the sign of `memcmp` is the
order of the numbers the arrays spell with the first byte as the highest digit
(`value`), so that arguments about byte strings become arguments about numbers.
-/

namespace Linguafranca

/-- An array of `n` bytes. -/
@[ext]
structure Bytes (n : ℕ) where
  toList : List UInt8
  length_toList : toList.length = n
deriving DecidableEq

namespace Bytes

/-- The array of zero bytes. -/
def zero (n : ℕ) : Bytes n :=
  ⟨List.replicate n 0, by simp⟩

/-- Overwrite the first `count` bytes with those of the source, as far as both reach. -/
def memcpy {n m : ℕ} (target : Bytes n) (source : Bytes m) (count : ℕ) : Bytes n :=
  ⟨source.1.take (min count (min n m)) ++ target.1.drop (min count (min n m)), by
    have := source.2
    have := target.2
    simp
    omega⟩

/-- The difference at the first position at which two byte strings differ. -/
def memcmp : List UInt8 → List UInt8 → Int
  | x :: xs, y :: ys => if x = y then memcmp xs ys else (x.toNat : Int) - y.toNat
  | _, _ => 0

/-- The number a byte string spells, the first byte as the highest digit. -/
def value : List UInt8 → ℕ
  | [] => 0
  | x :: xs => x.toNat * 256 ^ xs.length + value xs

variable {xs ys : List UInt8}

@[simp]
theorem value_nil : value [] = 0 :=
  rfl

@[simp]
theorem value_cons (x : UInt8) (xs : List UInt8) :
    value (x :: xs) = x.toNat * 256 ^ xs.length + value xs :=
  rfl

theorem value_lt (xs : List UInt8) : value xs < 256 ^ xs.length := by
  induction xs with
  | nil => simp
  | cons x xs ih =>
      have digit : x.toNat + 1 ≤ 256 := x.toNat_lt
      have scaled := Nat.mul_le_mul_right (256 ^ xs.length) digit
      simp only [value_cons, List.length_cons, pow_succ]
      linarith

theorem value_lt_of_head_lt {x y : UInt8} (lower : x.toNat < y.toNat)
    (lengths : xs.length = ys.length) : value (x :: xs) < value (y :: ys) := by
  have bound := value_lt xs
  have scaled := Nat.mul_le_mul_right (256 ^ ys.length) lower
  simp only [value_cons]
  rw [lengths] at bound ⊢
  simp only [Nat.succ_mul] at scaled
  omega

theorem cmp_memcmp (xs ys : List UInt8) (lengths : xs.length = ys.length) :
    cmp (memcmp xs ys) 0 = cmp (value xs) (value ys) := by
  induction xs generalizing ys with
  | nil =>
      obtain rfl := List.length_eq_zero_iff.mp lengths.symm
      exact (cmp_self_eq_eq (0 : Int)).trans (cmp_self_eq_eq (0 : ℕ)).symm
  | cons x xs ih =>
      cases ys with
      | nil => simp at lengths
      | cons y ys =>
          have shorter : xs.length = ys.length := by simpa using lengths
          by_cases same : x = y
          · subst same
            rw [memcmp, if_pos rfl, ih ys shorter, value_cons, value_cons, shorter]
            rcases lt_trichotomy (value xs) (value ys) with lower | same | higher
            · rw [(cmp_eq_lt_iff _ _).mpr lower, eq_comm, cmp_eq_lt_iff]
              omega
            · rw [same, cmp_self_eq_eq, cmp_self_eq_eq]
            · rw [(cmp_eq_gt_iff _ _).mpr higher, eq_comm, cmp_eq_gt_iff]
              omega
          · rw [memcmp, if_neg same]
            have digits : x.toNat ≠ y.toNat := fun equal => same (UInt8.toNat_inj.mp equal)
            rcases Nat.lt_or_gt_of_ne digits with lower | higher
            · rw [(cmp_eq_lt_iff _ _).mpr (value_lt_of_head_lt lower shorter), cmp_eq_lt_iff]
              omega
            · rw [(cmp_eq_gt_iff _ _).mpr (value_lt_of_head_lt higher shorter.symm),
                cmp_eq_gt_iff]
              omega

theorem value_injective (lengths : xs.length = ys.length) (same : value xs = value ys) :
    xs = ys := by
  induction xs generalizing ys with
  | nil => exact (List.length_eq_zero_iff.mp lengths.symm).symm
  | cons x xs ih =>
      cases ys with
      | nil => simp at lengths
      | cons y ys =>
          have shorter : xs.length = ys.length := by simpa using lengths
          have heads : x = y := by
            rcases lt_trichotomy x.toNat y.toNat with lower | equal | higher
            · exact absurd same (value_lt_of_head_lt lower shorter).ne
            · exact UInt8.toNat_inj.mp equal
            · exact absurd same (value_lt_of_head_lt higher shorter.symm).ne'
          subst heads
          simp only [value_cons, shorter] at same
          rw [ih shorter (by omega)]

theorem memcmp_eq_zero_iff (lengths : xs.length = ys.length) : memcmp xs ys = 0 ↔ xs = ys := by
  rw [← cmp_eq_eq_iff, cmp_memcmp xs ys lengths, cmp_eq_eq_iff]
  exact ⟨value_injective lengths, congrArg value⟩

/-- An array copied into a zeroed one up to some position arrives unchanged exactly when it
is zero from there on. -/
theorem memcpy_zero_eq_self_iff {n : ℕ} (source : Bytes n) (count : ℕ) :
    (zero n).memcpy source count = source ↔ ∀ byte ∈ source.1.drop count, byte = 0 := by
  have split := List.take_append_drop (min count n) source.1
  have drop : source.1.drop (min count n) = source.1.drop count := by
    rcases le_total count n with short | long
    · rw [min_eq_left short]
    · rw [min_eq_right long, List.drop_eq_nil_of_le source.2.le,
        List.drop_eq_nil_of_le (source.2.le.trans long)]
  simp only [Bytes.ext_iff, memcpy, zero, min_self, List.drop_replicate]
  constructor
  · intro same byte member
    have tails := List.append_cancel_left (same.trans split.symm)
    rw [← drop, ← tails] at member
    exact (List.mem_replicate.mp member).2
  · intro zeros
    have tails : source.1.drop (min count n) = List.replicate (n - min count n) 0 := by
      rw [List.eq_replicate_iff]
      refine ⟨by simp [source.2], ?_⟩
      rwa [drop]
    rw [← tails]
    exact split

/-- A whole array copied into a zeroed one has zeros behind it. -/
theorem eq_zero_of_mem_drop_memcpy {n m : ℕ} (source : Bytes m) (fits : m ≤ n) :
    ∀ byte ∈ ((zero n).memcpy source m).1.drop m, byte = 0 := by
  have whole : min m (min n m) = m := by omega
  have taken : (source.1.take m).length = m := by simp [source.2]
  intro byte member
  simp only [memcpy, whole, zero, List.drop_append, taken, Nat.sub_self,
    List.drop_replicate, List.drop_eq_nil_of_le taken.le, List.nil_append] at member
  exact (List.mem_replicate.mp member).2

theorem value_le_of_forall₂ (smaller : List.Forall₂ (fun x y : UInt8 => x.toNat ≤ y.toNat) xs ys) :
    value xs ≤ value ys := by
  induction smaller with
  | nil => exact le_rfl
  | cons head tail ih =>
      simp only [value_cons, tail.length_eq]
      exact Nat.add_le_add (Nat.mul_le_mul_right _ head) ih

theorem forall₂_zero_le {n : ℕ} (source : Bytes n) :
    List.Forall₂ (fun x y : UInt8 => x.toNat ≤ y.toNat) (zero n).1 source.1 := by
  rw [List.forall₂_iff_get]
  refine ⟨by simp [zero, source.2], ?_⟩
  intro i _ _
  simp [zero]

/-- Bytes copied into a zeroed array are those of the source or zero. -/
theorem forall₂_memcpy_zero_le {n : ℕ} (source : Bytes n) (count : ℕ) :
    List.Forall₂ (fun x y : UInt8 => x.toNat ≤ y.toNat)
      ((zero n).memcpy source count).1 source.1 := by
  rw [List.forall₂_iff_get]
  refine ⟨((zero n).memcpy source count).2.trans source.2.symm, ?_⟩
  intro i _ _
  simp only [memcpy, zero, List.get_eq_getElem, List.getElem_append, List.getElem_take,
    List.getElem_drop, List.getElem_replicate]
  split
  · exact le_rfl
  · exact Nat.zero_le _

end Bytes

end Linguafranca
