import Mathlib.Data.List.Basic

/-!
# Runs of a transition function

A system is a state and a total step function; a run folds the step over a list
of events. A run may be restricted by a condition on each step (`Meets`), read in
the state before the step. The two rules below are the only inductions over runs:
an invariant that every allowed step keeps holds after every allowed run, and a
property which each step keeps exactly under a condition holds throughout a run
exactly when every step of the run meets that condition.
-/

namespace Linguafranca.Run

universe u v

variable {State : Type u} {Event : Type v}

/-- The state after the events of a run. -/
def run (step : State → Event → State) (start : State) (events : List Event) : State :=
  events.foldl step start

/-- Every step of the run meets the condition in the state before it. -/
def Meets (step : State → Event → State) (condition : State → Event → Prop) :
    State → List Event → Prop
  | _, [] => True
  | state, event :: events =>
      condition state event ∧ Meets step condition (step state event) events

/-- The property holds in the first state of the run and in every later one. -/
def Always (step : State → Event → State) (property : State → Prop) :
    State → List Event → Prop
  | state, [] => property state
  | state, event :: events => property state ∧ Always step property (step state event) events

/-- A step that also keeps a record of the run, computed from the state before each event. -/
def observe {Record : Type*} (step : State → Event → State)
    (record : State → Event → Record → Record) (both : State × Record) (event : Event) :
    State × Record :=
  (step both.1 event, record both.1 event both.2)

variable {step : State → Event → State} {condition : State → Event → Prop}
  {property : State → Prop}

@[simp]
theorem run_nil (start : State) : run step start [] = start :=
  rfl

@[simp]
theorem run_cons (start : State) (event : Event) (events : List Event) :
    run step start (event :: events) = run step (step start event) events :=
  rfl

@[simp]
theorem run_append (start : State) (first second : List Event) :
    run step start (first ++ second) = run step (run step start first) second := by
  simp [run]

@[simp]
theorem meets_nil (start : State) : Meets step condition start [] :=
  trivial

@[simp]
theorem meets_cons (start : State) (event : Event) (events : List Event) :
    Meets step condition start (event :: events) ↔
      condition start event ∧ Meets step condition (step start event) events :=
  Iff.rfl

theorem meets_append (start : State) (first second : List Event) :
    Meets step condition start (first ++ second) ↔
      Meets step condition start first ∧ Meets step condition (run step start first) second := by
  induction first generalizing start with
  | nil => simp
  | cons event events ih => simp [ih, and_assoc]

theorem meets_mono {weaker : State → Event → Prop}
    (implies : ∀ state event, condition state event → weaker state event)
    {start : State} {events : List Event} (meets : Meets step condition start events) :
    Meets step weaker start events := by
  induction events generalizing start with
  | nil => trivial
  | cons event events ih => exact ⟨implies _ _ meets.1, ih meets.2⟩

theorem meets_and {other : State → Event → Prop} {start : State} {events : List Event}
    (first : Meets step condition start events) (second : Meets step other start events) :
    Meets step (fun state event => condition state event ∧ other state event) start events := by
  induction events generalizing start with
  | nil => trivial
  | cons event events ih => exact ⟨⟨first.1, second.1⟩, ih first.2 second.2⟩

theorem meets_of_mem {events : List Event}
    (every : ∀ event ∈ events, ∀ state, condition state event) (start : State) :
    Meets step condition start events := by
  induction events generalizing start with
  | nil => trivial
  | cons event events ih =>
      refine ⟨every event List.mem_cons_self start, ih ?_ (step start event)⟩
      intro later member
      exact every later (List.mem_cons_of_mem event member)

theorem always_append (start : State) (first second : List Event) :
    Always step property start (first ++ second) ↔
      Always step property start first ∧ Always step property (run step start first) second := by
  induction first generalizing start with
  | nil =>
      cases second with
      | nil => simp [Always]
      | cons event events => simp [Always]
  | cons event events ih => simp [Always, ih, and_assoc]

theorem first_of_always {start : State} {events : List Event}
    (always : Always step property start events) : property start := by
  cases events with
  | nil => exact always
  | cons event events => exact always.1

theorem last_of_always {start : State} {events : List Event}
    (always : Always step property start events) : property (run step start events) := by
  induction events generalizing start with
  | nil => exact always
  | cons event events ih => exact ih always.2

/-- What every allowed step keeps holds after every allowed run. -/
theorem invariant
    (kept : ∀ state event, property state → condition state event → property (step state event))
    {start : State} {events : List Event} (initially : property start)
    (meets : Meets step condition start events) : property (run step start events) := by
  induction events generalizing start with
  | nil => exact initially
  | cons event events ih => exact ih (kept start event initially meets.1) meets.2

/-- Along an allowed run a step also meets whatever follows from the invariant. -/
theorem meets_of_invariant {weaker : State → Event → Prop}
    (kept : ∀ state event, property state → condition state event → property (step state event))
    (implies : ∀ state event, property state → condition state event → weaker state event)
    {start : State} {events : List Event} (initially : property start)
    (meets : Meets step condition start events) : Meets step weaker start events := by
  induction events generalizing start with
  | nil => trivial
  | cons event events ih =>
      exact ⟨implies start event initially meets.1,
        ih (kept start event initially meets.1) meets.2⟩

/-- What every step keeps holds after every run. -/
theorem invariant_of_step (kept : ∀ state event, property state → property (step state event))
    {start : State} (events : List Event) (initially : property start) :
    property (run step start events) := by
  induction events generalizing start with
  | nil => exact initially
  | cons event events ih => exact ih (kept start event initially)

/-- What follows from an invariant of the allowed steps holds throughout an allowed run. -/
theorem always_of_invariant {invariant : State → Prop}
    (kept : ∀ state event, invariant state → condition state event → invariant (step state event))
    (implies : ∀ state, invariant state → property state)
    {start : State} {events : List Event} (initially : invariant start)
    (meets : Meets step condition start events) : Always step property start events := by
  induction events generalizing start with
  | nil => exact implies start initially
  | cons event events ih =>
      exact ⟨implies start initially, ih (kept start event initially meets.1) meets.2⟩

/-- Observing a run does not change it. -/
@[simp]
theorem run_observe_fst {Record : Type*} (record : State → Event → Record → Record)
    (start : State) (initial : Record) (events : List Event) :
    (run (observe step record) (start, initial) events).1 = run step start events := by
  induction events generalizing start initial with
  | nil => rfl
  | cons event events ih => exact ih (step start event) (record start event initial)

theorem meets_observe_iff {Record : Type*} {record : State → Event → Record → Record}
    {start : State} {events : List Event} (initial : Record) :
    Meets (observe step record) (fun both event => condition both.1 event) (start, initial)
        events ↔ Meets step condition start events := by
  induction events generalizing start initial with
  | nil => exact Iff.rfl
  | cons event events ih =>
      exact and_congr_right fun _ => ih (record start event initial)

/-- Along the allowed runs, a property that exactly the steps meeting a condition keep holds
throughout exactly the runs that meet it. The invariant may use both. -/
theorem always_iff_meets_of_invariant {invariant : State → Prop} {allowed : State → Event → Prop}
    (exact_step : ∀ state event, invariant state → allowed state event → property state →
      (property (step state event) ↔ condition state event))
    (kept : ∀ state event, invariant state → allowed state event → condition state event →
      invariant (step state event))
    {start : State} {events : List Event} (invariantStart : invariant start)
    (initially : property start) (permitted : Meets step allowed start events) :
    Always step property start events ↔ Meets step condition start events := by
  induction events generalizing start with
  | nil => simpa [Always] using initially
  | cons event events ih =>
      rcases permitted with ⟨now, later⟩
      have one := exact_step start event invariantStart now initially
      simp only [Always, initially, true_and, meets_cons]
      constructor
      · intro always
        have next : property (step start event) := by
          cases events with
          | nil => exact always
          | cons _ _ => exact always.1
        have met := one.mp next
        exact ⟨met, (ih (kept start event invariantStart now met) next later).mp always⟩
      · rintro ⟨met, rest⟩
        exact (ih (kept start event invariantStart now met) (one.mpr met) later).mpr rest

/-- Along the allowed runs, two conditions that agree under an invariant are met by the same
runs. The invariant may use them. -/
theorem meets_iff_of_invariant {invariant : State → Prop} {allowed good : State → Event → Prop}
    (exact_step : ∀ state event, invariant state → allowed state event →
      (good state event ↔ condition state event))
    (kept : ∀ state event, invariant state → allowed state event → condition state event →
      invariant (step state event))
    {start : State} {events : List Event} (initially : invariant start)
    (permitted : Meets step allowed start events) :
    Meets step good start events ↔ Meets step condition start events := by
  induction events generalizing start with
  | nil => exact Iff.rfl
  | cons event events ih =>
      rcases permitted with ⟨now, later⟩
      have one := exact_step start event initially now
      constructor
      · rintro ⟨met, rest⟩
        have next := kept start event initially now (one.mp met)
        exact ⟨one.mp met, (ih next later).mp rest⟩
      · rintro ⟨met, rest⟩
        have next := kept start event initially now met
        exact ⟨one.mpr met, (ih next later).mpr rest⟩

/-- A property kept by exactly the steps that meet the condition holds throughout
exactly the runs that meet it. -/
theorem always_iff_meets
    (exact_step : ∀ state event, property state →
      (property (step state event) ↔ condition state event))
    {start : State} {events : List Event} (initially : property start) :
    Always step property start events ↔ Meets step condition start events := by
  have permitted : Meets step (fun _ _ => True) start events :=
    meets_of_mem (fun _ _ _ => trivial) start
  apply @always_iff_meets_of_invariant _ _ _ _ _ (fun _ => True) (fun _ _ => True)
  · intro state event _ _
    exact exact_step state event
  · intro _ _ _ _ _
    trivial
  · trivial
  · exact initially
  · exact permitted

end Linguafranca.Run
