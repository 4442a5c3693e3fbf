import Linguafranca.Ipshark.Framework
import Linguafranca.Support.Run
import Mathlib.Data.List.Count

/-!
# The threads of the framework

A start creates one thread and a stop joins the thread with the number in `tid`, which no stop
clears. So a stop without a thread running joins the last thread a second time, except before
the first thread. Otherwise every thread is joined once before the device is closed.
-/

namespace Linguafranca.Ipshark

open Run

variable {Handler : Type*}

/-- A stop finds the framework running, or no start has created a thread yet. -/
def StopsThread (f : Frame Handler) (call : FrameCall Handler) : Prop :=
  call = .stop → f.running = true ∨ f.tid = 0

/-- The threads up to a number were created, and all of them joined once except for the last
one while it runs. -/
structure ThreadLedger (acts : List FrameAct) (threads : ℕ) (running : Bool) : Prop where
  created : ∀ t, .create t ∈ acts ↔ 1 ≤ t ∧ t ≤ threads
  joined : ∀ t, acts.count (.join t) =
    if (1 ≤ t ∧ t ≤ threads) ∧ (running = true → t ≠ threads) then 1 else 0
  closed : ∀ before after, acts = before ++ .close :: after →
    ∀ t, .create t ∈ before → before.count (.join t) = 1

section ThreadLedger

variable {acts : List FrameAct} {threads : ℕ} {running : Bool}

/-- A place in a list with one more entry is the new one or was there before. -/
theorem split_of_snoc {act last : FrameAct} {before after : List FrameAct}
    (split : acts ++ [last] = before ++ act :: after) :
    (acts = before ∧ act = last) ∨ ∃ rest, acts = before ++ act :: rest := by
  rcases List.eq_nil_or_concat after with rfl | ⟨rest, other, rfl⟩
  · left
    rcases List.append_inj' split rfl with ⟨rfl, same⟩
    exact ⟨rfl, (List.singleton_inj.mp same).symm⟩
  · right
    refine ⟨rest, ?_⟩
    rw [List.concat_eq_append, ← List.cons_append, ← List.append_assoc] at split
    exact (List.append_inj' split rfl).1

theorem ThreadLedger.once (ledger : ThreadLedger acts threads running) (t : ℕ) :
    acts.count (.join t) ≤ 1 := by
  rw [ledger.joined]
  split
  · exact le_rfl
  · exact Nat.zero_le 1

theorem ThreadLedger.create (ledger : ThreadLedger acts threads false) :
    ThreadLedger (acts ++ [.create (threads + 1)]) (threads + 1) true where
  created := by
    intro t
    simp only [List.mem_append, ledger.created, List.mem_singleton, FrameAct.create.injEq]
    omega
  joined := by
    intro t
    rw [List.count_append, ledger.joined, List.count_singleton]
    simp only [beq_iff_eq, reduceCtorEq, if_false, Nat.add_zero, Bool.false_eq_true,
      false_implies, and_true, true_implies]
    congr 1
    simp only [eq_iff_iff]
    omega
  closed := by
    intro before after split
    rcases split_of_snoc split with ⟨-, same⟩ | ⟨rest, earlier⟩
    · cases same
    · exact ledger.closed before rest earlier

theorem ThreadLedger.join (ledger : ThreadLedger acts threads true) (some : 0 < threads) :
    ThreadLedger (acts ++ [.join threads]) threads false where
  created := by
    intro t
    simp [ledger.created]
  joined := by
    intro t
    rw [List.count_append, ledger.joined, List.count_singleton]
    by_cases last : t = threads
    · subst last
      simp [Nat.one_le_iff_ne_zero, some.ne']
    · have other : (FrameAct.join threads == FrameAct.join t) = false := by
        simpa using Ne.symm last
      simp [last, other]
  closed := by
    intro before after split
    rcases split_of_snoc split with ⟨-, same⟩ | ⟨rest, earlier⟩
    · cases same
    · exact ledger.closed before rest earlier

/-- The device may be closed when no thread is running. -/
theorem ThreadLedger.close (ledger : ThreadLedger acts threads false) :
    ThreadLedger (acts ++ [.close]) threads false where
  created := by
    intro t
    simp [ledger.created]
  joined := by
    intro t
    rw [List.count_append, ledger.joined, List.count_singleton]
    simp
  closed := by
    intro before after split t created
    rcases split_of_snoc split with ⟨rfl, -⟩ | ⟨rest, earlier⟩
    · have inside := (ledger.created t).mp created
      rw [ledger.joined]
      simp [inside]
    · exact ledger.closed before rest earlier t created

end ThreadLedger

/-! ## Calls -/

/-- `tid` has the last thread, which runs while the device is open. -/
structure FrameInv (f : Frame Handler) : Prop where
  threads : f.threads = f.tid
  ledger : ThreadLedger f.acts f.tid f.running
  device : f.fd.isSome = f.running
  thread : f.running = true → 0 < f.tid

section Calls

variable {f : Frame Handler}

/-- What a start does. -/
inductive Starts (f : Frame Handler) : Int × Frame Handler → Prop where
  | refused (err : Int) : err ≠ 0 → Starts f (err, f)
  | failed (err : Int) : f.fd = none →
      Starts f (err, { f with running := false, acts := f.acts ++ [.close] })
  | started (nfd : ℕ) : f.fd = none →
      Starts f (0,
        { f with
          running := true
          fd := some nfd
          tid := f.threads + 1
          acts := f.acts ++ [.create (f.threads + 1)] })

theorem starts_ipsFrameStart (args : StartArgs) (f : Frame Handler) :
    Starts f (ipsFrameStart args f) := by
  rcases f with ⟨handle, newthreadused, function, running, tid, fd, acts⟩
  cases fd with
  | some fd => exact .refused (-eexist) (by simp [eexist])
  | none =>
      rcases args with ⟨opened, devnum, ioctl, created⟩
      cases opened with
      | none => exact .refused (-enoent) (by simp [enoent])
      | some nfd =>
          simp only [ipsFrameStart, ipsInit]
          by_cases configured : ipsConfig devnum ioctl
              (⟨handle, newthreadused, function, running, tid, some nfd, acts⟩ : Frame Handler) = 0
          · by_cases fine : created = 0
            · simp only [configured, fine, ne_eq, not_true_eq_false, if_false]
              exact .started nfd rfl
            · simp only [configured, fine, ne_eq, not_true_eq_false, not_false_eq_true, if_true,
                if_false]
              exact .failed created rfl
          · simp only [configured, ne_eq, not_true_eq_false, not_false_eq_true, if_true, if_false]
            exact .failed _ rfl

theorem FrameInv.register (inv : FrameInv f) (h : Handler) (newthread : Bool) :
    FrameInv (ipsFrameRegister h newthread f) := by
  simp only [ipsFrameRegister]
  split
  · exact inv
  · exact ⟨inv.threads, inv.ledger, inv.device, inv.thread⟩

theorem FrameInv.start (inv : FrameInv f) (args : StartArgs) :
    FrameInv (ipsFrameStart args f).2 := by
  have starts := starts_ipsFrameStart args f
  generalize ipsFrameStart args f = result at starts ⊢
  cases starts with
  | refused err some => exact inv
  | failed err closed =>
      have stopped : f.running = false := by rw [← inv.device, closed]; rfl
      have ledger := inv.ledger
      rw [stopped] at ledger
      refine ⟨?_, ledger.close, ?_, ?_⟩
      · simpa [Frame.threads] using inv.threads
      · simp [closed]
      · simp
  | started nfd closed =>
      have stopped : f.running = false := by rw [← inv.device, closed]; rfl
      have ledger := inv.ledger
      rw [stopped, ← inv.threads] at ledger
      refine ⟨?_, ledger.create, rfl, ?_⟩
      · simp [Frame.threads]
      · simp

/-- A stop that finds a thread joins it and closes the device. -/
theorem ipsFrameStop_of_running (inv : FrameInv f) (running : f.running = true) :
    ipsFrameStop f =
      { f with running := false, fd := none, acts := f.acts ++ [.join f.tid] ++ [.close] } := by
  have opened : f.fd.isSome := by rw [inv.device, running]
  rcases Option.isSome_iff_exists.mp opened with ⟨nfd, device⟩
  simp [ipsFrameStop, ipsExit, inv.thread running, device]

theorem ipsFrameStop_of_idle (inv : FrameInv f) (stopped : f.running = false) :
    ipsFrameStop f =
      { f with acts := if 0 < f.tid then f.acts ++ [.join f.tid] else f.acts } := by
  have closed : f.fd = none := by
    rw [← Option.not_isSome_iff_eq_none, inv.device, stopped]
    exact Bool.false_ne_true
  by_cases some : 0 < f.tid
  · simp [ipsFrameStop, ipsExit, closed, stopped, some]
  · simp [ipsFrameStop, ipsExit, closed, stopped, some]

theorem FrameInv.stop (inv : FrameInv f) (stops : f.running = true ∨ f.tid = 0) :
    FrameInv (ipsFrameStop f) := by
  cases running : f.running with
  | true =>
      have ledger := inv.ledger
      rw [running] at ledger
      rw [ipsFrameStop_of_running inv running]
      refine ⟨?_, (ledger.join (inv.thread running)).close, rfl, ?_⟩
      · simpa [Frame.threads] using inv.threads
      · simp
  | false =>
      have none : f.tid = 0 := stops.resolve_left (by simp [running])
      rw [ipsFrameStop_of_idle inv running, if_neg (by omega)]
      exact inv

theorem FrameInv.step (inv : FrameInv f) {call : FrameCall Handler} (stops : StopsThread f call) :
    FrameInv (frameStep f call) := by
  cases call with
  | register h newthread => exact inv.register h newthread
  | start args => exact inv.start args
  | stop => exact inv.stop (stops rfl)

end Calls

end Linguafranca.Ipshark
