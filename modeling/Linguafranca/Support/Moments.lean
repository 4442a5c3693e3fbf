import Mathlib.Data.List.Basic
import Mathlib.Data.List.Pairwise
import Mathlib.Order.Defs.Unbundled

/-!
# What may have been seen meanwhile

A thread that reads a shared state several times sees it at several moments. The states
since the thread began are kept in the order in which they came (`Ordered`); where each of
them is related to every later one, any two that the thread saw can be compared.
-/

namespace Linguafranca.Moments

universe u

variable {State : Type u} {le : State → State → Prop} {past : List State} {now later s s' : State}

/-- The states up to now, each related to the later ones. -/
structure Ordered (le : State → State → Prop) (past : List State) (now : State) : Prop where
  pairwise : past.Pairwise le
  upToNow : ∀ s ∈ past, le s now
  isNow : now ∈ past

namespace Ordered

theorem start [Std.Refl le] (now : State) : Ordered le [now] now := by
  refine ⟨List.pairwise_singleton le now, ?_, List.mem_singleton_self now⟩
  intro s member
  rw [List.mem_singleton.mp member]
  exact Std.Refl.refl now

theorem next [Std.Refl le] [IsTrans State le] (ordered : Ordered le past now)
    (related : le now later) : Ordered le (past ++ [later]) later := by
  have before : ∀ s ∈ past, le s later :=
    fun s member => IsTrans.trans s now later (ordered.upToNow s member) related
  refine ⟨?_, ?_, List.mem_append_right past (List.mem_singleton_self later)⟩
  · rw [List.pairwise_append]
    refine ⟨ordered.pairwise, List.pairwise_singleton le later, ?_⟩
    intro s member s' last
    rw [List.mem_singleton.mp last]
    exact before s member
  · intro s member
    rcases List.mem_append.mp member with old | last
    · exact before s old
    · rw [List.mem_singleton.mp last]
      exact Std.Refl.refl later

/-- Two moments can be compared. -/
theorem compare [Std.Refl le] (ordered : Ordered le past now) (member : s ∈ past)
    (member' : s' ∈ past) : le s s' ∨ le s' s := by
  rcases List.append_of_mem member with ⟨before, after, rfl⟩
  have pairwise := ordered.pairwise
  rw [List.pairwise_append, List.pairwise_cons] at pairwise
  rcases List.mem_append.mp member' with earlier | here
  · exact Or.inr (pairwise.2.2 s' earlier s List.mem_cons_self)
  · left
    rcases List.mem_cons.mp here with same | later
    · rw [same]
      exact Std.Refl.refl s
    · exact pairwise.2.1.1 s' later

end Ordered

end Linguafranca.Moments
