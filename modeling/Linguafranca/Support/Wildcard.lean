import Mathlib

/-!
# Lexicographic comparison with wildcards

A record is a list of fields, each a value or absent. Two records are compared field by
field, and an absent field on either side equals every value. This relation is not an
order: equality is not transitive, and a record may lie before a second one, the second
before a third and the third before the first.

Two records are `Aligned` when they have their absent fields in the same places up to
the first field that tells them apart. Among pairwise aligned records the comparison is
an order again, and a record without absent fields that equals one of them lies on the
same side of the others as that one.
-/

namespace Linguafranca.Wildcard

universe u

variable {Value : Type u} [LinearOrder Value]

/-- Compare two records field by field; an absent field equals every value. -/
def compareFields : List (Option Value) → List (Option Value) → Ordering
  | some x :: xs, some y :: ys => (cmp x y).then (compareFields xs ys)
  | none :: xs, _ :: ys => compareFields xs ys
  | some _ :: xs, none :: ys => compareFields xs ys
  | _, _ => .eq

/-- Absent fields stand in the same places up to the first field that differs. -/
def Aligned : List (Option Value) → List (Option Value) → Prop
  | some x :: xs, some y :: ys => x = y → Aligned xs ys
  | none :: xs, none :: ys => Aligned xs ys
  | [], [] => True
  | _, _ => False

/-- No field is absent. -/
def Full (fields : List (Option Value)) : Prop :=
  ∀ field ∈ fields, field.isSome

instance decidableAligned : ∀ xs ys : List (Option Value), Decidable (Aligned xs ys)
  | some x :: xs, some y :: ys =>
      have := decidableAligned xs ys
      inferInstanceAs (Decidable (x = y → Aligned xs ys))
  | none :: xs, none :: ys => decidableAligned xs ys
  | [], [] => .isTrue trivial
  | [], _ :: _ => .isFalse id
  | _ :: _, [] => .isFalse (by simp [Aligned])
  | none :: _, some _ :: _ => .isFalse id
  | some _ :: _, none :: _ => .isFalse id

@[simp]
theorem compareFields_some (x y : Value) (xs ys : List (Option Value)) :
    compareFields (some x :: xs) (some y :: ys) = (cmp x y).then (compareFields xs ys) :=
  rfl

@[simp]
theorem compareFields_none_left (y : Option Value) (xs ys : List (Option Value)) :
    compareFields (none :: xs) (y :: ys) = compareFields xs ys :=
  rfl

@[simp]
theorem compareFields_none_right (x : Option Value) (xs ys : List (Option Value)) :
    compareFields (x :: xs) (none :: ys) = compareFields xs ys := by
  cases x <;> rfl

@[simp]
theorem compareFields_nil : compareFields ([] : List (Option Value)) [] = .eq :=
  rfl

theorem compareFields_swap (xs ys : List (Option Value)) :
    (compareFields xs ys).swap = compareFields ys xs := by
  induction xs generalizing ys with
  | nil => rcases ys with _ | ⟨_ | _, _⟩ <;> rfl
  | cons x xs ih =>
      cases ys with
      | nil => cases x <;> rfl
      | cons y ys =>
          cases x with
          | none => simp [ih]
          | some x =>
              cases y with
              | none => simp [ih]
              | some y => simp [Ordering.swap_then, cmp_swap, ih]

theorem compareFields_eq_gt_iff {xs ys : List (Option Value)} :
    compareFields xs ys = .gt ↔ compareFields ys xs = .lt := by
  rw [← compareFields_swap ys xs]
  cases compareFields ys xs <;> simp

omit [LinearOrder Value] in
theorem Aligned.symm {xs ys : List (Option Value)} (aligned : Aligned xs ys) : Aligned ys xs := by
  induction xs generalizing ys with
  | nil =>
      cases ys with
      | nil => trivial
      | cons y ys => exact aligned.elim
  | cons x xs ih =>
      cases ys with
      | nil => cases x <;> exact aligned.elim
      | cons y ys =>
          cases x with
          | none =>
              cases y with
              | none => exact ih aligned
              | some y => exact aligned.elim
          | some x =>
              cases y with
              | none => exact aligned.elim
              | some y => exact fun same => ih (aligned same.symm)

omit [LinearOrder Value] in
theorem Full.tail {z : Option Value} {zs : List (Option Value)} (full : Full (z :: zs)) : Full zs :=
  fun field member => full field (List.mem_cons_of_mem z member)

/-- A field that differs decides. -/
theorem cmp_then_of_ne {x y : Value} (differ : x ≠ y) (rest : Ordering) :
    (cmp x y).then rest = cmp x y := by
  rcases lt_or_gt_of_ne differ with below | above
  · rw [(cmp_eq_lt_iff x y).mpr below]
    rfl
  · rw [(cmp_eq_gt_iff x y).mpr above]
    rfl

/-- A record that equals one of two aligned records lies on the side of the other on which
that one lies, provided it has a value wherever that one has one up to the first field that
tells the two apart. -/
theorem compareFields_of_aligned {xs ys zs : List (Option Value)}
    (covers : Full zs ∨ Aligned zs ys) (aligned : Aligned xs ys)
    (lengths : zs.length = xs.length) (ties : compareFields zs xs = .eq) :
    compareFields zs ys = compareFields xs ys := by
  induction xs generalizing ys zs with
  | nil =>
      obtain rfl := List.length_eq_zero_iff.mp lengths
      rfl
  | cons x xs ih =>
      cases zs with
      | nil => simp at lengths
      | cons z zs =>
          have shorter : zs.length = xs.length := by simpa using lengths
          cases ys with
          | nil => cases x <;> exact aligned.elim
          | cons y ys =>
              cases x with
              | none =>
                  cases y with
                  | none =>
                      simp only [compareFields_none_right] at ties ⊢
                      refine ih ?_ aligned shorter ties
                      rcases covers with full | alignedZ
                      · exact Or.inl full.tail
                      · cases z with
                        | none => exact Or.inr alignedZ
                        | some z => exact alignedZ.elim
                  | some y => exact aligned.elim
              | some x =>
                  cases y with
                  | none => exact aligned.elim
                  | some y =>
                      cases z with
                      | none =>
                          rcases covers with full | alignedZ
                          · simpa using full none (by simp)
                          · exact alignedZ.elim
                      | some z =>
                          simp only [compareFields_some, Ordering.then_eq_eq,
                            cmp_eq_eq_iff] at ties
                          rcases ties with ⟨rfl, rest⟩
                          simp only [compareFields_some]
                          by_cases same : z = y
                          · rw [ih ?_ (aligned same) shorter rest]
                            rcases covers with full | alignedZ
                            · exact Or.inl full.tail
                            · exact Or.inr (alignedZ same)
                          · rw [cmp_then_of_ne same, cmp_then_of_ne same]

/-- Two records that equal a record without absent fields equal each other. -/
theorem compareFields_eq_of_full {xs ys zs : List (Option Value)} (full : Full zs)
    (lengthX : zs.length = xs.length) (lengthY : zs.length = ys.length)
    (tiesX : compareFields zs xs = .eq) (tiesY : compareFields zs ys = .eq) :
    compareFields xs ys = .eq := by
  induction zs generalizing xs ys with
  | nil =>
      obtain rfl := List.length_eq_zero_iff.mp lengthX.symm
      obtain rfl := List.length_eq_zero_iff.mp lengthY.symm
      rfl
  | cons z zs ih =>
      cases xs with
      | nil => simp at lengthX
      | cons x xs =>
          cases ys with
          | nil => simp at lengthY
          | cons y ys =>
              have shorterX : zs.length = xs.length := by simpa using lengthX
              have shorterY : zs.length = ys.length := by simpa using lengthY
              cases z with
              | none => simpa using full none List.mem_cons_self
              | some z =>
                  cases x with
                  | none =>
                      rw [compareFields_none_right] at tiesX
                      rw [compareFields_none_left]
                      cases y with
                      | none =>
                          rw [compareFields_none_right] at tiesY
                          exact ih full.tail shorterX shorterY tiesX tiesY
                      | some y =>
                          simp only [compareFields_some, Ordering.then_eq_eq] at tiesY
                          exact ih full.tail shorterX shorterY tiesX tiesY.2
                  | some x =>
                      simp only [compareFields_some, Ordering.then_eq_eq, cmp_eq_eq_iff] at tiesX
                      cases y with
                      | none =>
                          rw [compareFields_none_right] at tiesY ⊢
                          exact ih full.tail shorterX shorterY tiesX.2 tiesY
                      | some y =>
                          simp only [compareFields_some, Ordering.then_eq_eq,
                            cmp_eq_eq_iff] at tiesY ⊢
                          exact ⟨tiesX.1.symm.trans tiesY.1,
                            ih full.tail shorterX shorterY tiesX.2 tiesY.2⟩

/-- Along aligned pairs the comparison is transitive. -/
theorem compareFields_trans {xs ys zs : List (Option Value)}
    (alignedXY : Aligned xs ys) (alignedYZ : Aligned ys zs)
    (below : compareFields xs ys = .lt) (above : compareFields ys zs = .lt) :
    compareFields xs zs = .lt := by
  induction xs generalizing ys zs with
  | nil => cases ys <;> simp [compareFields] at below
  | cons x xs ih =>
      cases ys with
      | nil => cases x <;> exact alignedXY.elim
      | cons y ys =>
          cases zs with
          | nil => cases y <;> exact alignedYZ.elim
          | cons z zs =>
              cases x with
              | none =>
                  cases y with
                  | none =>
                      cases z with
                      | none => exact ih alignedXY alignedYZ below above
                      | some z => exact alignedYZ.elim
                  | some y => exact alignedXY.elim
              | some x =>
                  cases y with
                  | none => exact alignedXY.elim
                  | some y =>
                      cases z with
                      | none => exact alignedYZ.elim
                      | some z =>
                          simp only [compareFields_some, Ordering.then_eq_lt, cmp_eq_lt_iff,
                            cmp_eq_eq_iff] at below above ⊢
                          rcases below with lower | ⟨rfl, rest⟩
                          · rcases above with lower' | ⟨rfl, -⟩
                            · exact Or.inl (lower.trans lower')
                            · exact Or.inl lower
                          · rcases above with lower' | ⟨rfl, rest'⟩
                            · exact Or.inl lower'
                            · exact Or.inr ⟨rfl, ih (alignedXY rfl) (alignedYZ rfl) rest rest'⟩

end Linguafranca.Wildcard
