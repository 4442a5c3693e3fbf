import Mathlib.Algebra.Order.BigOperators.Group.Finset

/-!
# Adding up counters that grow meanwhile

A reader adds up a row of counters one after the other while others make them grow. What it
has read so far lies between the same part of the row as it was when the reader began and as
it is now.
-/

namespace Linguafranca.Collect

variable {M : Type*} [AddCommMonoid M] [PartialOrder M] [IsOrderedAddMonoid M]

/-- The sum of the first counters of a row, each read at a time of its own. -/
structure Bracket (first now : ℕ → M) (count : ℕ) (sum : M) : Prop where
  lower : ∑ i ∈ Finset.range count, first i ≤ sum
  upper : sum ≤ ∑ i ∈ Finset.range count, now i

variable {first now later : ℕ → M} {count : ℕ} {sum : M}

omit [IsOrderedAddMonoid M] in
theorem bracket_zero (first now : ℕ → M) : Bracket first now 0 0 where
  lower := le_of_eq (Finset.sum_range_zero first)
  upper := le_of_eq (Finset.sum_range_zero now).symm

/-- The counters may grow between two reads. -/
theorem Bracket.grow (bracket : Bracket first now count sum) (grows : ∀ i, now i ≤ later i) :
    Bracket first later count sum where
  lower := bracket.lower
  upper := bracket.upper.trans (Finset.sum_le_sum fun i _ => grows i)

theorem Bracket.read (bracket : Bracket first now count sum) (grown : first count ≤ now count) :
    Bracket first now (count + 1) (sum + now count) where
  lower := by
    rw [Finset.sum_range_succ]
    exact add_le_add bracket.lower grown
  upper := by
    rw [Finset.sum_range_succ]
    exact add_le_add bracket.upper le_rfl

end Linguafranca.Collect
