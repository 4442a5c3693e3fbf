import Mathlib.Data.List.Nodup
import Mathlib.Logic.Equiv.Basic
import Mathlib.Order.Basic
import Mathlib.Algebra.Group.End

/-!
# Selection sort

The passes of a selection sort over the first entries of an array, as the permutation they
apply to it, so that several arrays can be sorted by the keys of one. Each pass swaps a
smallest key of those left to the front of them.
-/

namespace Linguafranca.SelectionSort

universe u

variable {Key : Type u} [LinearOrder Key]

/-- The scan of a pass: an index with a smallest key among some of them. -/
def smallest (key : ℕ → Key) (start : ℕ) (others : List ℕ) : ℕ :=
  others.foldl (fun small j => if key j < key small then j else small) start

/-- The indices behind one below a bound. -/
def behind (i n : ℕ) : List ℕ :=
  List.range' (i + 1) (n - (i + 1))

/-- The permutation after a number of passes. -/
def order (key : ℕ → Key) (n : ℕ) : ℕ → Equiv.Perm ℕ
  | 0 => 1
  | i + 1 => order key n i * Equiv.swap i (smallest (key ∘ order key n i) i (behind i n))

variable {key : ℕ → Key} {i j n start : ℕ} {others : List ℕ}

theorem mem_behind : j ∈ behind i n ↔ i < j ∧ j < n := by
  rw [behind, List.mem_range'_1]
  omega

theorem smallest_mem (key : ℕ → Key) (start : ℕ) (others : List ℕ) :
    smallest key start others = start ∨ smallest key start others ∈ others := by
  induction others generalizing start with
  | nil => exact Or.inl rfl
  | cons j others ih =>
      simp only [smallest, List.foldl_cons]
      split
      · rcases ih j with same | later
        · exact Or.inr (List.mem_cons.mpr (Or.inl same))
        · exact Or.inr (List.mem_cons_of_mem j later)
      · rcases ih start with same | later
        · exact Or.inl same
        · exact Or.inr (List.mem_cons_of_mem j later)

theorem key_smallest_le (key : ℕ → Key) (start : ℕ) (others : List ℕ) :
    key (smallest key start others) ≤ key start ∧
      ∀ j ∈ others, key (smallest key start others) ≤ key j := by
  induction others generalizing start with
  | nil => exact ⟨le_rfl, fun j absent => absurd absent List.not_mem_nil⟩
  | cons first others ih =>
      simp only [smallest, List.foldl_cons]
      split
      · next lower =>
          rcases ih first with ⟨below, rest⟩
          refine ⟨below.trans lower.le, ?_⟩
          intro j member
          rcases List.mem_cons.mp member with rfl | later
          · exact below
          · exact rest j later
      · next higher =>
          rcases ih start with ⟨below, rest⟩
          refine ⟨below, ?_⟩
          intro j member
          rcases List.mem_cons.mp member with rfl | later
          · exact below.trans (not_lt.mp higher)
          · exact rest j later

theorem smallest_bounds (key : ℕ → Key) (inside : i < n) :
    i ≤ smallest key i (behind i n) ∧ smallest key i (behind i n) < n := by
  rcases smallest_mem key i (behind i n) with same | later
  · rw [same]
    exact ⟨le_rfl, inside⟩
  · rw [mem_behind] at later
    omega

theorem key_smallest_le_of_le (key : ℕ → Key) (from_i : i ≤ j) (inside : j < n) :
    key (smallest key i (behind i n)) ≤ key j := by
  rcases key_smallest_le key i (behind i n) with ⟨first, rest⟩
  rcases from_i.eq_or_lt with rfl | later
  · exact first
  · exact rest j (mem_behind.mpr ⟨later, inside⟩)

/-- The passes stay within the first entries. -/
theorem order_of_le (passes : i ≤ n) (outside : n ≤ j) : order key n i j = j := by
  induction i with
  | zero => rfl
  | succ i ih =>
      have bounds := smallest_bounds (key ∘ order key n i) (show i < n by omega)
      rw [order, Equiv.Perm.mul_apply, Equiv.swap_apply_of_ne_of_ne (by omega) (by omega)]
      exact ih (by omega)

theorem order_lt (passes : i ≤ n) (inside : j < n) : order key n i j < n := by
  by_contra outside
  have fixed := @order_of_le _ _ key i _ n passes (not_lt.mp outside)
  have same := (order key n i).injective fixed
  omega

theorem swap_bounds {low first second : ℕ} (firstIn : low ≤ first ∧ first < n)
    (secondIn : low ≤ second ∧ second < n) (inside : low ≤ j ∧ j < n) :
    low ≤ Equiv.swap first second j ∧ Equiv.swap first second j < n := by
  rw [Equiv.swap_apply_def]
  split
  · exact secondIn
  · split
    · exact firstIn
    · exact inside

/-- After some passes the first keys are in order and below all others. -/
theorem key_order_le (passes : i ≤ n) {first second : ℕ} (sorted : first < i)
    (ordered : first ≤ second) (inside : second < n) :
    key (order key n i first) ≤ key (order key n i second) := by
  induction i generalizing first second with
  | zero => omega
  | succ i ih =>
      have bounds := smallest_bounds (key ∘ order key n i) (show i < n by omega)
      have least : ∀ j, i ≤ j → j < n →
          key (order key n i (smallest (key ∘ order key n i) i (behind i n))) ≤
            key (order key n i j) :=
        fun j from_i below => key_smallest_le_of_le (key ∘ order key n i) from_i below
      simp only [order, Equiv.Perm.mul_apply]
      generalize smallest (key ∘ order key n i) i (behind i n) = small at bounds least
      rcases Nat.lt_succ_iff_lt_or_eq.mp sorted with before | rfl
      · rw [Equiv.swap_apply_of_ne_of_ne before.ne (by omega)]
        have moved := @swap_bounds second n first i small (by omega) (by omega) (by omega)
        exact ih (by omega) before moved.1 moved.2
      · rw [Equiv.swap_apply_left]
        have moved := @swap_bounds second n first first small (by omega) (by omega) (by omega)
        exact least _ moved.1 moved.2

theorem sorted_order (ordered : i ≤ j) (inside : j < n) :
    key (order key n n i) ≤ key (order key n n j) :=
  key_order_le le_rfl (by omega) ordered inside

theorem exists_order_eq (inside : j < n) : ∃ i < n, order key n n i = j := by
  refine ⟨(order key n n).symm j, ?_, Equiv.apply_symm_apply _ j⟩
  by_contra outside
  have fixed := @order_of_le _ _ key n _ n le_rfl (not_lt.mp outside)
  rw [Equiv.apply_symm_apply] at fixed
  omega

/-- The sort moves the first entries among themselves. -/
theorem map_order_perm (key : ℕ → Key) (n : ℕ) :
    ((List.range n).map (order key n n)).Perm (List.range n) := by
  apply (List.perm_ext_iff_of_nodup ?_ List.nodup_range).mpr
  · intro j
    simp only [List.mem_map, List.mem_range]
    constructor
    · rintro ⟨i, inside, rfl⟩
      exact order_lt le_rfl inside
    · intro inside
      exact exists_order_eq inside
  · exact List.nodup_range.map (order key n n).injective

end Linguafranca.SelectionSort
