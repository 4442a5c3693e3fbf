import Linguafranca.Support.Run
import Mathlib.Data.Set.Subsingleton
import Mathlib.Logic.Function.Basic
import Mathlib.Order.BooleanAlgebra.Set

/-!
# Threads that interleave atomic steps

Any number of threads share a state; each has a local state of its own. An event names a
thread and what it does next, and only the shared state and that thread change. A section
is a condition on the local state. The rules say which threads are in a section after a
step, what a thread does while it runs alone, and how a state in which every thread can
finish comes to rest.
-/

namespace Linguafranca.Interleaving

open Run

universe u v w

variable {Shared : Type u} {Local : Type v} {Event : Type w}

/-- What the threads share, and how far each of them has come. -/
structure Threads (Shared : Type u) (Local : Type v) where
  shared : Shared
  pc : ℕ → Local

/-- One thread takes a step that leads to this shared and local state. -/
def Threads.move (s : Threads Shared Local) (t : ℕ) (shared : Shared) (pc : Local) :
    Threads Shared Local :=
  ⟨shared, Function.update s.pc t pc⟩

/-- One atomic step of one thread. -/
def step (act : Shared → Local → Event → Shared × Local) (s : Threads Shared Local)
    (event : ℕ × Event) : Threads Shared Local :=
  s.move event.1 (act s.shared (s.pc event.1) event.2).1 (act s.shared (s.pc event.1) event.2).2

/-- A thread that runs alone. -/
def solo (act : Shared → Local → Event → Shared × Local) (both : Shared × Local)
    (event : Event) : Shared × Local :=
  act both.1 both.2 event

/-- The threads in a section. -/
def inside (part : Local → Prop) (s : Threads Shared Local) : Set ℕ :=
  {t | part (s.pc t)}

variable {act : Shared → Local → Event → Shared × Local} {s : Threads Shared Local}
  {shared : Shared} {pc : Local} {part : Local → Prop} {t : ℕ}

@[simp]
theorem shared_step (s : Threads Shared Local) (event : ℕ × Event) :
    (step act s event).shared = (act s.shared (s.pc event.1) event.2).1 :=
  rfl

/-! ## Sections -/

@[simp]
theorem mem_inside : t ∈ inside part s ↔ part (s.pc t) :=
  Iff.rfl

@[simp]
theorem shared_move : (s.move t shared pc).shared = shared :=
  rfl

theorem pc_move_self : (s.move t shared pc).pc t = pc :=
  Function.update_self t _ s.pc

theorem pc_move_of_ne {t' : ℕ} (other : t' ≠ t) : (s.move t shared pc).pc t' = s.pc t' :=
  Function.update_of_ne other _ s.pc

/-- What is read off the threads changes at the one that moved. -/
theorem read_move {Value : Type*} (s : Threads Shared Local) (t : ℕ) (shared : Shared) (pc : Local)
    (read : Local → Value) :
    (fun u => read ((s.move t shared pc).pc u)) =
      Function.update (fun u => read (s.pc u)) t (read pc) := by
  funext u
  by_cases same : u = t
  · rw [same, pc_move_self, Function.update_self]
  · rw [pc_move_of_ne same, Function.update_of_ne same]

theorem read_move_of_eq {Value : Type*} (s : Threads Shared Local) (t : ℕ) (shared : Shared)
    (pc : Local) (read : Local → Value) (kept : read pc = read (s.pc t)) :
    (fun u => read ((s.move t shared pc).pc u)) = fun u => read (s.pc u) := by
  rw [read_move, kept]
  exact Function.update_eq_self t _

/-- An event that a thread does not take changes nothing. -/
theorem step_eq_self {event : Event}
    (stays : act s.shared (s.pc t) event = (s.shared, s.pc t)) : step act s (t, event) = s := by
  simp [step, stays, Threads.move]

theorem inside_move_of_inside (entered : part pc) :
    inside part (s.move t shared pc) = insert t (inside part s) := by
  ext t'
  by_cases same : t' = t
  · simp [same, pc_move_self, entered]
  · simp [same, pc_move_of_ne same]

theorem inside_move_of_outside (outside : ¬part pc) :
    inside part (s.move t shared pc) = inside part s \ {t} := by
  ext t'
  by_cases same : t' = t
  · simp [same, pc_move_self, outside]
  · simp [same, pc_move_of_ne same]

/-- A thread that neither enters nor leaves a section does not change it. -/
theorem inside_move_of_iff (kept : part pc ↔ part (s.pc t)) :
    inside part (s.move t shared pc) = inside part s := by
  by_cases inner : part pc
  · rw [inside_move_of_inside inner]
    exact Set.insert_eq_of_mem (kept.mp inner)
  · rw [inside_move_of_outside inner]
    exact Set.sdiff_singleton_eq_self fun member => inner (kept.mpr member)

/-- The only thread of a section leaves it empty. -/
theorem inside_move_eq_empty (one : (inside part s).Subsingleton) (inner : part (s.pc t))
    (outside : ¬part pc) : inside part (s.move t shared pc) = ∅ := by
  rw [inside_move_of_outside outside, one.eq_singleton_of_mem inner]
  exact Set.sdiff_self

/-! ## Threads that run alone -/

theorem run_solo (s : Threads Shared Local) (t : ℕ) (events : List Event) :
    run (step act) s (events.map fun event => (t, event)) =
      s.move t (run (solo act) (s.shared, s.pc t) events).1
        (run (solo act) (s.shared, s.pc t) events).2 := by
  induction events generalizing s with
  | nil => simp [Threads.move]
  | cons event events ih => simp [ih, step, solo, Threads.move]

/-- Only the threads named in a run take steps. -/
theorem pc_run_of_not_mem {events : List (ℕ × Event)} (absent : t ∉ events.map Prod.fst)
    (s : Threads Shared Local) : (run (step act) s events).pc t = s.pc t := by
  induction events generalizing s with
  | nil => rfl
  | cons event events ih =>
      rw [List.map_cons, List.mem_cons, not_or] at absent
      rw [run_cons, ih absent.2]
      exact pc_move_of_ne absent.1

/-- Where each thread can finish alone, finitely many of them come to rest one by one. -/
theorem exists_rest {idle : Local} {ready : Shared → Prop} (outside : ¬part idle)
    (finish : ∀ shared pc, ready shared → ¬part pc →
      ∃ events, ready (run (solo act) (shared, pc) events).1 ∧
        (run (solo act) (shared, pc) events).2 = idle)
    (threads : List ℕ) (isReady : ready s.shared) (empty : inside part s = ∅)
    (others : ∀ t ∉ threads, s.pc t = idle) :
    ∃ events, ready (run (step act) s events).shared ∧
      ∀ t, (run (step act) s events).pc t = idle := by
  induction threads generalizing s with
  | nil => exact ⟨[], isReady, fun t => others t List.not_mem_nil⟩
  | cons t threads ih =>
      have free : ∀ t', ¬part (s.pc t') := Set.eq_empty_iff_forall_notMem.mp empty
      rcases finish s.shared (s.pc t) isReady (free t) with ⟨own, ownReady, ownIdle⟩
      have after : run (step act) s (own.map fun event => (t, event)) = _ := run_solo s t own
      have restAfter : ∀ t' ≠ t,
          (run (step act) s (own.map fun event => (t, event))).pc t' = s.pc t' := by
        intro t' other
        rw [after]
        exact pc_move_of_ne other
      have idleAfter : (run (step act) s (own.map fun event => (t, event))).pc t = idle := by
        rw [after, pc_move_self]
        exact ownIdle
      have emptyAfter :
          inside part (run (step act) s (own.map fun event => (t, event))) = ∅ := by
        rw [after, inside_move_of_iff, empty]
        rw [ownIdle]
        exact iff_of_false outside (free t)
      have othersAfter : ∀ t' ∉ threads,
          (run (step act) s (own.map fun event => (t, event))).pc t' = idle := by
        intro t' absent
        by_cases same : t' = t
        · rwa [same]
        · rw [restAfter t' same]
          exact others t' (by simp [same, absent])
      rcases ih (by rwa [after]) emptyAfter othersAfter with ⟨events, finished⟩
      refine ⟨own.map (fun event => (t, event)) ++ events, ?_⟩
      rwa [run_append]

end Linguafranca.Interleaving
