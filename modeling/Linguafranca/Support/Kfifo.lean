import Mathlib.Data.List.Basic
import Mathlib.Tactic.Common

/-!
# Bounded first-in first-out queues

A queue carries its contents, the oldest first, and its size, which the contents never
exceed. Putting into a full queue is refused and leaves it as it was.
-/

namespace Linguafranca

/-- The items in order, and how many fit. -/
structure Kfifo (Item : Type*) where
  items : List Item
  size : ℕ
  bounded : items.length ≤ size

namespace Kfifo

variable {Item : Type*}

/-- An empty queue. -/
def alloc (size : ℕ) : Kfifo Item :=
  ⟨[], size, Nat.zero_le size⟩

/-- An item is appended if there is room. -/
def put (fifo : Kfifo Item) (item : Item) : Bool × Kfifo Item :=
  if room : fifo.items.length < fifo.size then
    (true, ⟨fifo.items ++ [item], fifo.size, by simpa using Nat.succ_le_of_lt room⟩)
  else (false, fifo)

/-- The first item and the queue without it. -/
def get (fifo : Kfifo Item) : Option (Item × Kfifo Item) :=
  match fifo with
  | ⟨[], _, _⟩ => none
  | ⟨item :: rest, size, bounded⟩ => some (item, ⟨rest, size, Nat.le_of_succ_le bounded⟩)

/-- Take out as many items as there are, but at most `count`. -/
def out (fifo : Kfifo Item) (count : ℕ) : List Item × Kfifo Item :=
  (fifo.items.take count, ⟨fifo.items.drop count, fifo.size, by
    have bounded := fifo.bounded
    simp only [List.length_drop]
    omega⟩)

variable {fifo left : Kfifo Item} {item : Item}

@[simp]
theorem items_alloc (size : ℕ) : (alloc size : Kfifo Item).items = [] :=
  rfl

@[simp]
theorem size_alloc (size : ℕ) : (alloc size : Kfifo Item).size = size :=
  rfl

@[simp]
theorem size_put (fifo : Kfifo Item) (item : Item) : (fifo.put item).2.size = fifo.size := by
  simp only [put]
  split <;> rfl

theorem put_of_room (item : Item) (room : fifo.items.length < fifo.size) :
    (fifo.put item).1 = true ∧ (fifo.put item).2.items = fifo.items ++ [item] := by
  simp [put, room]

theorem subset_put (fifo : Kfifo Item) (item : Item) : fifo.items ⊆ (fifo.put item).2.items := by
  simp only [put]
  split
  · exact List.subset_append_left _ _
  · exact List.Subset.refl _

theorem mem_of_mem_put {other : Item} (member : other ∈ (fifo.put item).2.items) :
    other ∈ fifo.items ∨ other = item := by
  simp only [put] at member
  split at member
  · simpa using member
  · exact Or.inl member

theorem get_eq_some (taken : fifo.get = some (item, left)) :
    fifo.items = item :: left.items ∧ left.size = fifo.size := by
  rcases fifo with ⟨items, size, bounded⟩
  cases items with
  | nil => simp [get] at taken
  | cons first rest =>
      simp only [get, Option.some.injEq, Prod.mk.injEq] at taken
      rcases taken with ⟨rfl, rfl⟩
      exact ⟨rfl, rfl⟩

@[simp]
theorem size_out (fifo : Kfifo Item) (count : ℕ) : (fifo.out count).2.size = fifo.size :=
  rfl

theorem out_append (fifo : Kfifo Item) (count : ℕ) :
    (fifo.out count).1 ++ (fifo.out count).2.items = fifo.items :=
  List.take_append_drop count fifo.items

theorem out_zero (fifo : Kfifo Item) : fifo.out 0 = ([], fifo) :=
  rfl

end Kfifo

end Linguafranca
