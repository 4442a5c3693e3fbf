import Mathlib.Data.List.Chain
import Mathlib.Data.Nat.Digits.Defs
import Mathlib.Tactic.Common

/-!
# Numbers and separators in a text

A text is a list of characters. Numbers are written by `Nat.toDigits`, possibly with zeros in
front, and read back digit by digit to a base up to sixteen. A text made of pieces with a
separator between them is taken apart by `List.splitOn`; `cutTwice` cuts a text at the first
place where the separator stands twice.
-/

namespace Linguafranca.Text

/-! ## Numbers -/

/-- The value of a digit up to base 16. -/
def digitValue (c : Char) : Option ℕ :=
  if '0' ≤ c ∧ c ≤ '9' then some (c.toNat - '0'.toNat)
  else if 'a' ≤ c ∧ c ≤ 'f' then some (c.toNat - 'a'.toNat + 10)
  else if 'A' ≤ c ∧ c ≤ 'F' then some (c.toNat - 'A'.toNat + 10)
  else none

/-- One more digit behind a value. -/
def readDigit (base value : ℕ) (c : Char) : Option ℕ :=
  (digitValue c).bind fun digit => if digit < base then some (base * value + digit) else none

/-- The number that the digits of a text spell. -/
def readNumber (base : ℕ) (text : List Char) : Option ℕ :=
  text.foldlM (readDigit base) 0

/-- Zeros in front of a text up to a width. -/
def padded (width : ℕ) (text : List Char) : List Char :=
  List.replicate (width - text.length) '0' ++ text

variable {base n width value : ℕ} {text : List Char}

theorem digitValue_digitChar (small : n < 16) : digitValue n.digitChar = some n := by
  have all : ∀ digit : Fin 16, digitValue (Nat.digitChar digit) = some digit.val := by decide
  exact all ⟨n, small⟩

theorem readDigit_digitChar (small : n < base) (upTo : base ≤ 16) (value : ℕ) :
    readDigit base value n.digitChar = some (base * value + n) := by
  rw [readDigit, digitValue_digitChar (by omega), Option.bind_some, if_pos small]

theorem readNumber_toDigits (proper : 1 < base) (upTo : base ≤ 16) (n : ℕ) :
    readNumber base (Nat.toDigits base n) = some n := by
  induction n using Nat.strong_induction_on with
  | _ n ih =>
      rw [Nat.toDigits_eq_if proper]
      split
      · next small =>
          have digit := readDigit_digitChar small upTo 0
          simpa [readNumber] using digit
      · next large =>
          have smaller : n / base < n := Nat.div_lt_self (by omega) proper
          have digit := readDigit_digitChar (Nat.mod_lt n (by omega)) upTo (n / base)
          have front := ih (n / base) smaller
          rw [readNumber] at front
          rw [readNumber, List.foldlM_append, front]
          simpa [Nat.div_add_mod] using digit

theorem toDigits_injective (proper : 1 < base) (upTo : base ≤ 16) {m : ℕ}
    (same : Nat.toDigits base n = Nat.toDigits base m) : n = m := by
  apply Option.some.inj
  rw [← readNumber_toDigits proper upTo n, same, readNumber_toDigits proper upTo m]

theorem readNumber_padded (proper : 1 < base) (width : ℕ) (text : List Char) :
    readNumber base (padded width text) = readNumber base text := by
  have zero : readDigit base 0 '0' = some 0 := by
    have none : 0 < base := by omega
    simp [readDigit, digitValue, none]
  have zeros : ∀ count, (List.replicate count '0').foldlM (readDigit base) 0 = some 0 := by
    intro count
    induction count with
    | zero => rfl
    | succ count ih => simpa [List.replicate_succ, zero] using ih
  rw [readNumber, padded, List.foldlM_append, zeros]
  rfl

/-- Every character of a number is a digit. -/
theorem digitValue_of_mem {start : ℕ} {c : Char}
    (read : (text.foldlM (readDigit base) start).isSome) (member : c ∈ text) :
    (digitValue c).isSome := by
  induction text generalizing start with
  | nil => simp at member
  | cons first rest ih =>
      rw [List.foldlM_cons] at read
      cases digit : readDigit base start first with
      | none => simp [digit] at read
      | some next =>
          rcases List.mem_cons.mp member with rfl | later
          · cases value : digitValue c with
            | none => simp [readDigit, value] at digit
            | some _ => rfl
          · apply @ih next
            · simpa [digit] using read
            · exact later

theorem notMem_of_readNumber {c : Char} (read : (readNumber base text).isSome)
    (other : digitValue c = none) : c ∉ text := by
  intro member
  have digit := digitValue_of_mem read member
  simp [other] at digit

theorem length_padded (short : text.length ≤ width) : (padded width text).length = width := by
  simp only [padded, List.length_append, List.length_replicate]
  omega

/-! ## Separators -/

/-- The parts of a text in front of and behind the first two separators in a row. -/
def cutTwice (sep : Char) : List Char → Option (List Char × List Char)
  | [] => none
  | [_] => none
  | first :: second :: rest =>
      if first = sep ∧ second = sep then some ([], rest)
      else (cutTwice sep (second :: rest)).map fun cut => (first :: cut.1, cut.2)

/-- There are no two separators in a row. -/
def Spaced (sep : Char) (text : List Char) : Prop :=
  text.IsChain fun first second => ¬(first = sep ∧ second = sep)

/-- Pieces that a separator can be put between. -/
def Separable (sep : Char) (pieces : List (List Char)) : Prop :=
  ∀ piece ∈ pieces, piece ≠ [] ∧ sep ∉ piece

variable {sep : Char} {piece rest : List Char} {pieces : List (List Char)}

theorem cutTwice_of_spaced (spaced : Spaced sep text) : cutTwice sep text = none := by
  fun_induction cutTwice sep text with
  | case1 => rfl
  | case2 => rfl
  | case3 first second rest twice => exact absurd twice (List.isChain_cons_cons.mp spaced).1
  | case4 first second rest _ ih =>
      rw [ih (List.isChain_cons_cons.mp spaced).2]
      rfl

theorem cutTwice_append (spaced : Spaced sep (text ++ [sep])) :
    cutTwice sep (text ++ sep :: sep :: rest) = some (text, rest) := by
  induction text with
  | nil => simp [cutTwice]
  | cons first later ih =>
      cases later with
      | nil =>
          have apart := (List.isChain_cons_cons.mp spaced).1
          have ends := ih (List.isChain_singleton sep)
          rw [List.nil_append] at ends
          rw [List.singleton_append, cutTwice, if_neg apart, ends]
          rfl
      | cons second later =>
          rcases List.isChain_cons_cons.mp spaced with ⟨apart, spacedRest⟩
          have cut := ih spacedRest
          rw [List.cons_append] at cut
          rw [List.cons_append, List.cons_append, cutTwice, if_neg apart, cut]
          rfl

theorem spaced_of_notMem (without : sep ∉ text) : Spaced sep text := by
  apply List.Pairwise.isChain
  apply List.pairwise_of_forall_mem_list
  rintro first member second - ⟨rfl, -⟩
  exact without member

theorem intercalate_ne_nil (separable : Separable sep pieces) (some_piece : pieces ≠ []) :
    [sep].intercalate pieces ≠ [] := by
  cases pieces with
  | nil => exact absurd rfl some_piece
  | cons first others =>
      have proper := (separable first List.mem_cons_self).1
      cases others with
      | nil => simpa using proper
      | cons second others => simp [List.intercalate_cons_cons]

/-- A text made of pieces neither begins nor ends with a separator. -/
theorem ends_intercalate (separable : Separable sep pieces) :
    sep ∉ ([sep].intercalate pieces).head? ∧ sep ∉ ([sep].intercalate pieces).getLast? := by
  induction pieces with
  | nil => simp
  | cons first others ih =>
      rcases separable first List.mem_cons_self with ⟨proper, without⟩
      have later : Separable sep others := fun piece member =>
        separable piece (List.mem_cons_of_mem first member)
      have head : sep ∉ first.head? := fun member => without (List.mem_of_mem_head? member)
      have last : sep ∉ first.getLast? := fun member => without (List.mem_of_mem_getLast? member)
      cases others with
      | nil => simpa using ⟨head, last⟩
      | cons second others =>
          have proper_rest := intercalate_ne_nil later (by simp)
          rw [List.intercalate_cons_cons, List.append_assoc]
          constructor
          · rwa [List.head?_append_of_ne_nil _ proper]
          · rw [List.getLast?_append_of_ne_nil _ (by simp),
              List.getLast?_append_of_ne_nil _ proper_rest]
            exact (ih later).2

theorem spaced_intercalate (separable : Separable sep pieces) :
    Spaced sep ([sep].intercalate pieces) := by
  induction pieces with
  | nil => exact List.isChain_nil
  | cons first others ih =>
      have without := (separable first List.mem_cons_self).2
      have later : Separable sep others := fun piece member =>
        separable piece (List.mem_cons_of_mem first member)
      cases others with
      | nil => simpa using spaced_of_notMem without
      | cons second others =>
          rw [List.intercalate_cons_cons, List.append_assoc]
          apply List.IsChain.append (spaced_of_notMem without)
          · apply List.isChain_cons.mpr
            refine ⟨?_, ih later⟩
            rintro y member ⟨-, rfl⟩
            exact (ends_intercalate later).1 member
          · rintro x member y - ⟨rfl, -⟩
            exact without (List.mem_of_mem_getLast? member)

/-- Pieces followed by two separators are cut off there. -/
theorem cutTwice_intercalate (separable : Separable sep pieces) :
    cutTwice sep ([sep].intercalate pieces ++ sep :: sep :: rest) =
      some ([sep].intercalate pieces, rest) := by
  apply cutTwice_append
  apply List.IsChain.append (spaced_intercalate separable) (List.isChain_singleton sep)
  rintro x member y - ⟨rfl, -⟩
  exact (ends_intercalate separable).2 member

theorem notMem_intercalate {c : Char} (other : c ≠ sep) (without : ∀ piece ∈ pieces, c ∉ piece) :
    c ∉ [sep].intercalate pieces := by
  induction pieces with
  | nil => simp
  | cons first others ih =>
      have here := without first List.mem_cons_self
      have later := ih fun piece member => without piece (List.mem_cons_of_mem first member)
      cases others with
      | nil => simpa using here
      | cons second others =>
          rw [List.intercalate_cons_cons]
          simp [here, other, later]

theorem length_intercalate_le {bound : ℕ} (each : ∀ piece ∈ pieces, piece.length ≤ bound) :
    ([sep].intercalate pieces).length ≤ pieces.length * (bound + 1) := by
  induction pieces with
  | nil => simp
  | cons first others ih =>
      have here := each first List.mem_cons_self
      have later := ih fun piece member => each piece (List.mem_cons_of_mem first member)
      cases others with
      | nil =>
          simp only [List.intercalate_singleton, List.length_singleton]
          omega
      | cons second others =>
          rw [List.intercalate_cons_cons, List.length_append, List.length_append,
            List.length_singleton, List.length_cons, Nat.succ_mul]
          omega

/-- A text up to the first separator is determined by the whole. -/
theorem cut_injective {first second firstRest secondRest : List Char} (inFirst : sep ∉ first)
    (inSecond : sep ∉ second) (same : first ++ sep :: firstRest = second ++ sep :: secondRest) :
    first = second ∧ firstRest = secondRest := by
  have split := congrArg (List.splitOn sep) same
  have other := congrArg (List.drop (first.length + 1)) same
  rw [List.splitOn_append_cons_self_of_not_mem inFirst,
    List.splitOn_append_cons_self_of_not_mem inSecond, List.cons.injEq] at split
  rcases split with ⟨rfl, -⟩
  exact ⟨rfl, by simpa using other⟩

/-- The same behind a label. -/
theorem field_injective {label first second firstRest secondRest : List Char}
    (inFirst : sep ∉ first) (inSecond : sep ∉ second)
    (same : label ++ (first ++ sep :: firstRest) = label ++ (second ++ sep :: secondRest)) :
    first = second ∧ firstRest = secondRest :=
  cut_injective inFirst inSecond (List.append_cancel_left same)

end Linguafranca.Text
