import Linguafranca.Support.Interleaving

/-!
# Threads that can always go on

A thread that goes on alone comes to some place (`Comes`). Where in every state that is
reached some thread that is not at rest can come to rest alone, all threads can, one after
the other; so they never wait for each other in a circle.
-/

namespace Linguafranca.Interleaving

open Run

universe u v w

variable {Shared : Type u} {Local : Type v} {Event : Type w}

/-- The thread comes to such a place when it takes this event again and again. -/
def Comes (act : Shared → Local → Event → Shared × Local) (event : Event)
    (goal : Local → Prop) (s : Threads Shared Local) (t : ℕ) : Prop :=
  ∃ count, goal ((run (step act) s (List.replicate count (t, event))).pc t)

variable {act : Shared → Local → Event → Shared × Local} {event : Event} {goal : Local → Prop}
  {s : Threads Shared Local} {t : ℕ}

theorem comes_here (here : goal (s.pc t)) : Comes act event goal s t :=
  ⟨0, here⟩

theorem comes_of_step (later : Comes act event goal (step act s (t, event)) t) :
    Comes act event goal s t := by
  rcases later with ⟨count, comes⟩
  exact ⟨count + 1, comes⟩

/-- What holds after every step holds after a thread went on. -/
theorem kept_run {kept : Threads Shared Local → Prop}
    (keeps : ∀ s event, kept s → kept (step act s event)) (isKept : kept s)
    (events : List (ℕ × Event)) : kept (run (step act) s events) :=
  invariant_of_step keeps events isKept

/-- Where some thread can always come to rest, all of them can. -/
theorem exists_run_to_rest {kept : Threads Shared Local → Prop} {rest : Local → Prop}
    (keeps : ∀ s event, kept s → kept (step act s event))
    (some : ∀ s, kept s → (∃ t, ¬rest (s.pc t)) →
      ∃ t, ¬rest (s.pc t) ∧ Comes act event rest s t)
    (threads : List ℕ) (isKept : kept s) (others : ∀ t ∉ threads, rest (s.pc t)) :
    ∃ events : List (ℕ × Event), (∀ one ∈ events, one.2 = event) ∧
      ∀ t, rest ((run (step act) s events).pc t) := by
  induction hn : threads.length using Nat.strong_induction_on generalizing threads s with
  | _ size ih =>
      by_cases done : ∀ t, rest (s.pc t)
      · exact ⟨[], fun _ none => absurd none List.not_mem_nil, done⟩
      · rw [not_forall] at done
        rcases some s isKept done with ⟨t, busy, count, comes⟩
        have member : t ∈ threads := by
          by_contra outside
          exact busy (others t outside)
        -- Only the thread that goes on has another place then.
        have rests : ∀ other ∉ threads.filter fun one => one ≠ t,
            rest ((run (step act) s (List.replicate count (t, event))).pc other) := by
          intro other outside
          by_cases same : other = t
          · rw [same]
            exact comes
          · rw [pc_run_of_not_mem]
            · apply others
              intro inside
              exact outside (List.mem_filter.mpr ⟨inside, decide_eq_true same⟩)
            · rw [List.map_replicate]
              exact fun named => same (List.eq_of_mem_replicate named)
        have fewer : (threads.filter fun one => one ≠ t).length < size := by
          rw [← hn]
          apply List.length_filter_lt_length_iff_exists.mpr
          exact ⟨t, member, by simp⟩
        rcases ih _ fewer _ (kept_run keeps isKept _) rests rfl with ⟨more, only, finished⟩
        refine ⟨List.replicate count (t, event) ++ more, ?_, ?_⟩
        · intro one inside
          rcases List.mem_append.mp inside with first | second
          · rw [List.eq_of_mem_replicate first]
          · exact only one second
        · rw [run_append]
          exact finished

end Linguafranca.Interleaving
