import Mathlib.Data.List.Basic
import Mathlib.Tactic.Common

/-!
# Taking from several queues

Up to a number of items are taken from a list of queues in order, each queue giving what it
has before the next one is asked. The shares make up the first items of all queues together,
and each queue is its share followed by what remains.
-/

namespace Linguafranca.Gather

universe u

variable {Item : Type u}

/-- What each queue gives. -/
def shares : ℕ → List (List Item) → List (List Item)
  | _, [] => []
  | count, queue :: queues => queue.take count :: shares (count - queue.length) queues

/-- What stays in each queue. -/
def remains : ℕ → List (List Item) → List (List Item)
  | _, [] => []
  | count, queue :: queues => queue.drop count :: remains (count - queue.length) queues

/-- The number of items in all queues. -/
def total (queues : List (List Item)) : ℕ :=
  queues.flatten.length

variable {queues : List (List Item)} {i : ℕ} {queue : List Item}

@[simp]
theorem total_nil : total ([] : List (List Item)) = 0 :=
  rfl

@[simp]
theorem total_cons (queue : List Item) (queues : List (List Item)) :
    total (queue :: queues) = queue.length + total queues := by
  simp [total]

theorem flatten_shares (count : ℕ) (queues : List (List Item)) :
    (shares count queues).flatten = queues.flatten.take count := by
  induction queues generalizing count with
  | nil => simp [shares]
  | cons queue queues ih => simp [shares, ih, List.take_append]

theorem length_flatten_shares (count : ℕ) (queues : List (List Item)) :
    (shares count queues).flatten.length = min count (total queues) := by
  simp [flatten_shares, total]

@[simp]
theorem length_shares (count : ℕ) (queues : List (List Item)) :
    (shares count queues).length = queues.length := by
  induction queues generalizing count with
  | nil => rfl
  | cons queue queues ih => simp [shares, ih]

@[simp]
theorem length_remains (count : ℕ) (queues : List (List Item)) :
    (remains count queues).length = queues.length := by
  induction queues generalizing count with
  | nil => rfl
  | cons queue queues ih => simp [remains, ih]

theorem remains_zero (queues : List (List Item)) : remains 0 queues = queues := by
  induction queues with
  | nil => rfl
  | cons queue queues ih => simp [remains, ih]

theorem remains_of_empty (count : ℕ) (empty : ∀ queue ∈ queues, queue = []) :
    remains count queues = queues := by
  induction queues generalizing count with
  | nil => rfl
  | cons queue queues ih =>
      rcases List.forall_mem_cons.mp empty with ⟨rfl, rest⟩
      simp [remains, ih count rest]

theorem flatten_shares_zero (queues : List (List Item)) : (shares 0 queues).flatten = [] := by
  simp [flatten_shares]

/-- A queue is its share and what remains. -/
theorem getD_shares_append (count : ℕ) (queues : List (List Item)) (i : ℕ) :
    (shares count queues).getD i [] ++ (remains count queues).getD i [] = queues.getD i [] := by
  induction queues generalizing count i with
  | nil => simp [shares, remains]
  | cons queue queues ih =>
      cases i with
      | zero => simp [shares, remains]
      | succ i => simpa [shares, remains] using ih (count - queue.length) i

theorem total_remains (count : ℕ) (queues : List (List Item)) :
    total (remains count queues) + min count (total queues) = total queues := by
  induction queues generalizing count with
  | nil => simp [remains]
  | cons queue queues ih =>
      have later := ih (count - queue.length)
      simp only [remains, total_cons, List.length_drop]
      omega

theorem total_set_append (present : queues[i]? = some queue) (item : Item) :
    total (queues.set i (queue ++ [item])) = total queues + 1 := by
  induction queues generalizing i with
  | nil => simp at present
  | cons first queues ih =>
      cases i with
      | zero =>
          obtain rfl : first = queue := by simpa using present
          simp only [List.set_cons_zero, total_cons, List.length_append, List.length_singleton]
          omega
      | succ i =>
          have later := ih (i := i) (by simpa using present)
          simp only [List.set_cons_succ, total_cons]
          omega

end Linguafranca.Gather
