import Mathlib.Data.List.TakeWhile
import Mathlib.Tactic.Common

/-!
# Arrays of characters

A text is written into an array of characters with a NUL behind it. A write that does not fit
has no result. The string in an array ends at the first NUL.
-/

namespace Linguafranca.CharBuffer

/-- The character that ends a string. -/
def nul : Char :=
  Char.ofNat 0

/-- The string at the start of an array. -/
def string (cells : List Char) : List Char :=
  cells.takeWhile (· ≠ nul)

/-- Write a text and a NUL from an offset on. -/
def put (cells : List Char) (start : ℕ) (text : List Char) : Option (List Char) :=
  if start + text.length + 1 ≤ cells.length then
    some (cells.take start ++ text ++ nul :: cells.drop (start + text.length + 1))
  else none

/-- The array starts with a text that has a NUL behind it. -/
def Holds (cells text : List Char) : Prop :=
  ∃ tail, cells = text ++ nul :: tail

variable {cells text : List Char} {start : ℕ}

theorem put_fits (room : start + text.length + 1 ≤ cells.length) :
    ∃ after, put cells start text = some after ∧ after.length = cells.length ∧
      Holds after (cells.take start ++ text) := by
  refine ⟨_, if_pos room, ?_, _, rfl⟩
  simp only [List.length_append, List.length_take, List.length_cons, List.length_drop]
  omega

theorem Holds.take (holds : Holds cells text) : cells.take text.length = text := by
  rcases holds with ⟨tail, rfl⟩
  simp

theorem Holds.getElem? (holds : Holds cells text) : cells[text.length]? = some nul := by
  rcases holds with ⟨tail, rfl⟩
  simp

theorem Holds.length (holds : Holds cells text) : text.length + 1 ≤ cells.length := by
  rcases holds with ⟨tail, rfl⟩
  simp

theorem Holds.string (holds : Holds cells text) (without : nul ∉ text) : string cells = text := by
  rcases holds with ⟨tail, rfl⟩
  have every : ∀ c ∈ text, (decide (c ≠ nul)) = true := by
    rintro c member
    apply decide_eq_true
    rintro rfl
    exact without member
  rw [CharBuffer.string, List.takeWhile_append_of_pos every]
  simp

end Linguafranca.CharBuffer
