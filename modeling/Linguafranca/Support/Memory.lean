import Mathlib.Data.List.Range
import Mathlib.Data.UInt

/-!
# Memory as a function

A memory gives the byte at each offset. Numbers are stored with the lowest byte first, and a
buffer that was filled up to some offset has whatever lay there before from that offset on.
-/

namespace Linguafranca

/-- The byte at every address. -/
abbrev Memory : Type :=
  ℕ → UInt8

namespace Memory

/-- The bytes from an offset on. -/
def span (memory : Memory) (start count : ℕ) : List UInt8 :=
  (List.range' start count).map memory

/-- The number stored from an offset on. -/
def number (memory : Memory) (start : ℕ) : ℕ → ℕ
  | 0 => 0
  | count + 1 => (memory start).toNat + 256 * number memory (start + 1) count

/-- The first `count` bytes of one memory in front of another. -/
def fill (count : ℕ) (first behind : Memory) : Memory :=
  fun offset => if offset < count then first offset else behind offset

/-- Bytes put over what is stored from an offset on. -/
def store (memory : Memory) (start : ℕ) (bytes : List UInt8) : Memory :=
  fun offset =>
    if start ≤ offset then bytes.getD (offset - start) (memory offset) else memory offset

/-- The `count` lowest digits of a number to the base 256, as they are stored. -/
def digits : ℕ → ℕ → List UInt8
  | 0, _ => []
  | count + 1, value => UInt8.ofNat value :: digits count (value / 256)

variable {memory other first behind : Memory} {start count total : ℕ}

theorem number_congr (same : ∀ offset, start ≤ offset → offset < start + count →
    memory offset = other offset) : memory.number start count = other.number start count := by
  induction count generalizing start with
  | zero => rfl
  | succ count ih =>
      have here := same start le_rfl (by omega)
      have rest : memory.number (start + 1) count = other.number (start + 1) count := by
        apply ih
        intro offset lower upper
        exact same offset (by omega) (by omega)
      simp only [number, here, rest]

theorem fill_of_lt {offset : ℕ} (inside : offset < total) :
    fill total first behind offset = first offset :=
  if_pos inside

theorem number_fill (fits : start + count ≤ total) :
    (fill total first behind).number start count = first.number start count := by
  apply number_congr
  intro offset _ upper
  exact fill_of_lt (by omega)

@[simp]
theorem length_span : (memory.span start count).length = count := by
  simp [span]

theorem span_append (first second : ℕ) :
    memory.span start (first + second) =
      memory.span start first ++ memory.span (start + first) second := by
  simp only [span, ← List.map_append, List.range'_append_1]

/-- What was stored is read back, whole or in part. -/
theorem span_store {bytes : List UInt8} {skip : ℕ} (inside : skip + count ≤ bytes.length) :
    (memory.store start bytes).span (start + skip) count = (bytes.drop skip).take count := by
  apply List.ext_getElem
  · simp only [length_span, List.length_take, List.length_drop]
    omega
  · intro i lower upper
    have here : i < count := by simpa using lower
    have place : start + skip + i - start = skip + i := by omega
    simp only [span, List.getElem_map, List.getElem_range', one_mul, store, List.getElem_take,
      List.getElem_drop, place]
    rw [if_pos (by omega)]
    simp [show skip + i < bytes.length by omega]

theorem span_store_self (bytes : List UInt8) :
    (memory.store start bytes).span start bytes.length = bytes := by
  have whole := @span_store memory start bytes.length bytes 0 (by omega)
  rw [Nat.add_zero, List.drop_zero, List.take_length] at whole
  exact whole

theorem span_store_of_disjoint {bytes : List UInt8} {place : ℕ}
    (apart : place + count ≤ start ∨ start + bytes.length ≤ place) :
    (memory.store start bytes).span place count = memory.span place count := by
  apply List.map_congr_left
  intro offset member
  rw [List.mem_range'_1] at member
  simp only [store]
  split
  · next behind => simp [show bytes.length ≤ offset - start by omega]
  · rfl

/-- Behind what was stored the memory is as before. -/
theorem store_of_le {bytes : List UInt8} {offset : ℕ} (behind : start + bytes.length ≤ offset) :
    memory.store start bytes offset = memory offset := by
  simp only [store]
  rw [if_pos (by omega)]
  simp [show bytes.length ≤ offset - start by omega]

@[simp]
theorem length_digits (count value : ℕ) : (digits count value).length = count := by
  induction count generalizing value with
  | zero => rfl
  | succ count ih => simp [digits, ih]

/-- A number that was stored is read back modulo what has room. -/
theorem number_of_span_eq_digits {value : ℕ} (stored : memory.span start count = digits count value) :
    memory.number start count = value % 256 ^ count := by
  induction count generalizing start value with
  | zero => simp [number, Nat.mod_one]
  | succ count ih =>
      simp only [span, List.range'_succ, List.map_cons, digits, List.cons.injEq] at stored
      rcases stored with ⟨lowest, rest⟩
      have low : (memory start).toNat = value % 256 := by simp [lowest]
      rw [number, low, ih rest, pow_succ', Nat.mod_mul]

end Memory

end Linguafranca
