import Linguafranca.Support.Buckets
import Mathlib.Data.List.Infix

/-!
# Lists made of pointers

Each node of a list in memory has a pointer to the next one. `Linked` says which nodes a
pointer leads to; what the memory gives for other nodes does not matter. A list that only
grows in front can be walked meanwhile: the walker keeps its place (`At`), because the
nodes behind it are as before.
-/

namespace Linguafranca.Chain

/-- From a pointer the nodes lead to each other and at last to nothing. The memory gives
the next pointer of each node that is there. -/
def Linked (next : ℕ → Option (Option ℕ)) : Option ℕ → List ℕ → Prop
  | first, [] => first = none
  | first, p :: rest => first = some p ∧ ∃ second, next p = some second ∧ Linked next second rest

/-- A walker of a list that has passed some nodes. -/
def At (next : ℕ → Option (Option ℕ)) (list visited : List ℕ) (pos : Option ℕ) : Prop :=
  ∃ rest, list = visited ++ rest ∧ Linked next pos rest

variable {next next' : ℕ → Option (Option ℕ)} {first second pos : Option ℕ}
  {list visited more : List ℕ} {p : ℕ}

theorem Linked.eq_nil (linked : Linked next none list) : list = [] := by
  cases list with
  | nil => rfl
  | cons p rest => exact absurd linked.1 (by simp)

theorem Linked.eq_cons (linked : Linked next (some p) list) :
    ∃ second rest, list = p :: rest ∧ next p = some second ∧ Linked next second rest := by
  cases list with
  | nil => exact absurd linked (by simp [Linked])
  | cons q rest =>
      rcases linked with ⟨same, second, here, linked⟩
      cases same
      exact ⟨second, rest, rfl, here, linked⟩

theorem Linked.congr (linked : Linked next first list) (same : ∀ q ∈ list, next' q = next q) :
    Linked next' first list := by
  induction list generalizing first with
  | nil => exact linked
  | cons q rest ih =>
      rcases linked with ⟨here, second, links, linked⟩
      refine ⟨here, second, ?_, ?_⟩
      · exact (same q List.mem_cons_self).trans links
      · apply ih linked
        exact fun other member => same other (List.mem_cons_of_mem q member)

/-- A new node in front. -/
theorem Linked.push (linked : Linked next first list) (links : next p = some first) :
    Linked next (some p) (p :: list) :=
  ⟨rfl, first, links, linked⟩

/-- Every node of the list is there. -/
theorem Linked.isSome (linked : Linked next first list) : ∀ q ∈ list, (next q).isSome := by
  induction list generalizing first with
  | nil => exact fun q member => absurd member List.not_mem_nil
  | cons other rest ih =>
      rcases linked with ⟨-, second, links, linked⟩
      intro q member
      rcases List.mem_cons.mp member with same | later
      · rw [same, links]
        rfl
      · exact ih linked q later

namespace At

theorem start (linked : Linked next first list) : At next list [] first :=
  ⟨list, rfl, linked⟩

/-- The node under a walker is in the list. -/
theorem mem (walks : At next list visited (some p)) : p ∈ list := by
  rcases walks with ⟨rest, rfl, linked⟩
  rcases linked.eq_cons with ⟨second, later, rfl, -, -⟩
  exact List.mem_append_right _ List.mem_cons_self

theorem forward (walks : At next list visited (some p)) (links : next p = some second) :
    At next list (visited ++ [p]) second := by
  rcases walks with ⟨rest, rfl, linked⟩
  rcases linked.eq_cons with ⟨other, later, rfl, links', linked⟩
  rw [links, Option.some.injEq] at links'
  rw [← links'] at linked
  exact ⟨later, by simp, linked⟩

/-- A walker at the end has passed every node. -/
theorem finish (walks : At next list visited none) : list = visited := by
  rcases walks with ⟨rest, rfl, linked⟩
  rw [linked.eq_nil, List.append_nil]

theorem congr (walks : At next list visited pos) (same : ∀ q ∈ list, next' q = next q) :
    At next' list visited pos := by
  rcases walks with ⟨rest, rfl, linked⟩
  refine ⟨rest, rfl, linked.congr ?_⟩
  exact fun q member => same q (List.mem_append_right visited member)

/-- Nodes that come in front have been passed. -/
theorem grow (walks : At next list visited pos) (more : List ℕ) :
    At next (more ++ list) (more ++ visited) pos := by
  rcases walks with ⟨rest, rfl, linked⟩
  exact ⟨rest, (List.append_assoc more visited rest).symm, linked⟩

end At

end Linguafranca.Chain
