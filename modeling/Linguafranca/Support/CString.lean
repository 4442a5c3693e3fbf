import Mathlib.Data.List.Basic
import Mathlib.Tactic.Common

/-!
# Strings in memory

A string starts at some bytes and ends before the first zero byte. A field of a number of
bytes holds a terminated string when there is a zero byte in it; on such fields `strncmp`
over the whole field compares the strings.
-/

namespace Linguafranca

/-- The string at the start of some bytes. -/
def cString (bytes : List UInt8) : List UInt8 :=
  bytes.takeWhile (· ≠ 0)

/-- The string ends within the first bytes. -/
def TerminatedIn (count : ℕ) (bytes : List UInt8) : Prop :=
  0 ∈ bytes.take count

instance (count : ℕ) (bytes : List UInt8) : Decidable (TerminatedIn count bytes) :=
  inferInstanceAs (Decidable (0 ∈ bytes.take count))

/-- Whether `strncmp` returns zero. -/
def strncmpEq (count : ℕ) (first second : List UInt8) : Bool :=
  cString (first.take count) == cString (second.take count)

variable {count : ℕ} {bytes first second : List UInt8}

theorem cString_append (ends : 0 ∈ first) (second : List UInt8) :
    cString (first ++ second) = cString first := by
  induction first with
  | nil => exact absurd ends List.not_mem_nil
  | cons byte rest ih =>
      by_cases last : byte = 0
      · simp [cString, last]
      · have later : 0 ∈ rest := by simpa [Ne.symm last] using ends
        have same := ih later
        simpa [cString, last] using same

theorem cString_take (ends : TerminatedIn count bytes) :
    cString (bytes.take count) = cString bytes := by
  have whole := cString_append ends (bytes.drop count)
  rw [List.take_append_drop] at whole
  exact whole.symm

/-- A field keeps its string whatever follows it. -/
theorem cString_field_append {field : List UInt8} (ends : TerminatedIn count field)
    (tail : List UInt8) : cString (field ++ tail) = cString field :=
  cString_append (List.mem_of_mem_take ends) tail

theorem strncmpEq_iff (firstEnds : TerminatedIn count first)
    (secondEnds : TerminatedIn count second) :
    strncmpEq count first second = true ↔ cString first = cString second := by
  simp only [strncmpEq, beq_iff_eq]
  rw [cString_take firstEnds, cString_take secondEnds]

end Linguafranca
