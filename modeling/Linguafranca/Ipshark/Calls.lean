import Linguafranca.Ipshark.Core
import Linguafranca.Support.Interleaving

/-!
# Calls that interleave on one device

Any number of threads call `set_namelist` and `fetch_info` on an open device. A call is its
atomic steps `cas`, body and, unless the configuration succeeded, `set`; the steps of
different threads come in any order. The set of threads between the `cas` and the end of
`set_namelist`, and that of the threads between the `cas` and the `set` of `fetch_info`,
tell with the device what the calls rely on (`CallsInv`).
-/

namespace Linguafranca.Ipshark

open Run Interleaving

/-- The two `ioctl` calls that change the state word, with their arguments. -/
inductive Call where
  | setNamelist (args : SetArgs)
  | fetchInfo (args : FetchArgs)

/-- Where a thread is: before the `cas`, before the body, or before the `set` of a call. -/
inductive Pc where
  | idle
  | called (c : Call)
  | working (c : Call)
  | leaving (c : Call)

/-- A thread makes a call, or goes on with the one it is in. -/
inductive Act where
  | call (c : Call)
  | step

namespace Call

/-- The state in which the call may start. -/
def expected : Call → DevState
  | setNamelist _ => .opened
  | fetchInfo _ => .nameSet

/-- The state in which the call leaves the word while it works. -/
def taken : Call → DevState
  | setNamelist _ => .nameSet
  | fetchInfo _ => .run

/-- The state that the call puts back. -/
def restored : Call → DevState
  | setNamelist _ => .opened
  | fetchInfo _ => .nameSet

/-- Whether the call comes to its `set`. -/
def restores : Call → Int → Bool
  | setNamelist _, err => err ≠ 0
  | fetchInfo _, _ => true

/-- The work of the call between the two changes of the state word. -/
def body (jhash : List UInt8 → UInt32 → UInt32) : Call → Device → Int × Device
  | setNamelist args => setNamelistBody jhash args
  | fetchInfo args => fetchInfoBody args

/-- The call without interruption. -/
def whole (jhash : List UInt8 → UInt32 → UInt32) : Call → Device → Int × Device
  | setNamelist args => Ipshark.setNamelist jhash args
  | fetchInfo args => Ipshark.fetchInfo args

end Call

/-- A call is entered by the compare and swap, works, and then restores the word. -/
def callAct (jhash : List UInt8 → UInt32 → UInt32) (dev : Device) : Pc → Act → Device × Pc
  | .idle, .call c => (dev, .called c)
  | .called c, .step =>
      let entered := cas c.expected c.taken dev
      (entered.2, if entered.1 = 0 then .working c else .idle)
  | .working c, .step =>
      let done := c.body jhash dev
      (done.2, if c.restores done.1 then .leaving c else .idle)
  | .leaving c, .step => (set c.restored dev, .idle)
  | pc, _ => (dev, pc)

/-- The threads in the calls of one device. -/
abbrev Calls : Type :=
  Threads Device Pc

/-- One step of one of the threads. -/
abbrev callStep (jhash : List UInt8 → UInt32 → UInt32) : Calls → ℕ × Act → Calls :=
  step (callAct jhash)

/-- After its `cas`, before `set_namelist` returns. -/
def Setting : Pc → Prop
  | .working (.setNamelist _) => True
  | .leaving (.setNamelist _) => True
  | _ => False

/-- Between the `cas` and the `set` of `fetch_info`. -/
def Fetching : Pc → Prop
  | .working (.fetchInfo _) => True
  | .leaving (.fetchInfo _) => True
  | _ => False

section

variable {jhash : List UInt8 → UInt32 → UInt32} {dev dev' : Device} {pc pc' : Pc}
  {setting fetching : Set ℕ} {t : ℕ}

theorem whole_eq (c : Call) (dev : Device) :
    c.whole jhash dev =
      let entered := cas c.expected c.taken dev
      if entered.1 ≠ 0 then entered
      else
        let done := c.body jhash entered.2
        (done.1, if c.restores done.1 then set c.restored done.2 else done.2) := by
  cases c with
  | setNamelist args =>
      simp only [Call.whole, setNamelist, Call.expected, Call.taken, Call.body, Call.restores,
        Call.restored]
      by_cases done : (setNamelistBody jhash args (cas .opened .nameSet dev).2).1 = 0 <;>
        simp [done]
  | fetchInfo args => rfl

/-- A thread that runs alone makes the uninterrupted call. -/
theorem solo_call (c : Call) (dev : Device) :
    run (solo (callAct jhash)) (dev, .idle) [.call c, .step, .step, .step] =
      ((c.whole jhash dev).2, .idle) := by
  rw [whole_eq]
  simp only [run_cons, run_nil, solo, callAct]
  by_cases entered : (cas c.expected c.taken dev).1 = 0
  · simp only [entered, if_true, ne_eq, not_true_eq_false, if_false]
    generalize c.body jhash (cas c.expected c.taken dev).2 = done
    by_cases restores : c.restores done.1 <;> simp [restores]
  · simp [entered]

/-! ## What a step can do -/

/-- A body that fails leaves the device as it was; one that succeeds configures it. -/
theorem setNamelistBody_cases (args : SetArgs) (dev : Device) :
    (setNamelistBody jhash args dev).1 ≠ 0 ∧ (setNamelistBody jhash args dev).2 = dev ∨
      (setNamelistBody jhash args dev).1 = 0 ∧ dev.devset.whiteBlack = ipsNone ∧
        ∃ devset, (setNamelistBody jhash args dev).2 = { dev with devset := devset } ∧
          devset.whiteBlack ≠ ipsNone ∧ devset.devHashtable.isSome := by
  simp only [setNamelistBody]
  by_cases copied : toInt args.copyList = 0
  · simp only [copied, ne_eq, not_true_eq_false, if_false]
    by_cases empty : args.devnum ≤ 0
    · left
      simp [empty, einval]
    · simp only [empty, if_false]
      by_cases readable : args.accessOk
      · by_cases allocated : args.vmalloc
        · by_cases named : toInt args.copyNames = 0
          · simp only [readable, allocated, named, not_true_eq_false, if_false, Bool.not_true,
              Bool.false_eq_true]
            rcases devsetAdd_cases args.kmalloc (some args.list) dev.devset with
              ⟨failed, same⟩ | ⟨added, unset, configured, table⟩
            · left
              exact ⟨failed, by rw [same]⟩
            · right
              exact ⟨added, unset, _, rfl, configured, table⟩
          · left
            simp [readable, allocated, named]
        · left
          simp [readable, allocated, efault]
      · left
        simp [readable]
  · left
    simp [copied]

/-- A request for a list whose copies, checks and allocations succeed. -/
structure SetArgs.Valid (args : SetArgs) : Prop where
  copyList : args.copyList = 0
  whiteBlack : args.whiteBlack ≠ ipsNone
  devnum : 0 < args.devnum
  accessOk : args.accessOk
  vmalloc : args.vmalloc
  copyNames : args.copyNames = 0

theorem setNamelistBody_valid {args : SetArgs} (valid : args.Valid)
    (table : dev.devset.devHashtable.isSome) (unset : dev.devset.whiteBlack = ipsNone) :
    ∃ devset : Devset, setNamelistBody jhash args dev = (0, { dev with devset := devset }) ∧
      devset.whiteBlack ≠ ipsNone := by
  have zero : toInt 0 = 0 := rfl
  have accepted := @devsetAdd_accepts jhash args.kmalloc dev.devset args.list table unset rfl
    valid.whiteBlack
  have done : (setNamelistBody jhash args dev).1 = 0 := by
    simp [setNamelistBody, valid.copyList, not_le.mpr valid.devnum, valid.accessOk, valid.vmalloc,
      valid.copyNames, zero, accepted]
  rcases @setNamelistBody_cases jhash args dev with
    ⟨failed, _⟩ | ⟨_, _, devset, after, configured, _⟩
  · exact absurd done failed
  · exact ⟨devset, Prod.ext done after, configured⟩

theorem fetchInfoBody_frame (args : FetchArgs) (dev : Device) :
    (fetchInfoBody args dev).2.devState = dev.devState ∧
      (fetchInfoBody args dev).2.devset = dev.devset := by
  unfold fetchInfoBody
  dsimp only
  split
  · exact ⟨rfl, rfl⟩
  · split
    · exact ⟨rfl, rfl⟩
    · split
      · exact ⟨rfl, rfl⟩
      · split
        · exact ⟨rfl, rfl⟩
        · split <;> exact ⟨rfl, rfl⟩

/-- One step of a thread, on the device and the thread. -/
inductive Took : Device → Pc → Device → Pc → Prop where
  | stays {dev : Device} {pc : Pc} : Took dev pc dev pc
  | begins {dev : Device} (c : Call) : Took dev .idle dev (.called c)
  | refused {dev : Device} (c : Call) : dev.devState ≠ c.expected → Took dev (.called c) dev .idle
  | enters {dev : Device} (c : Call) : dev.devState = c.expected →
      Took dev (.called c) { dev with devState := c.taken } (.working c)
  | fails {dev : Device} (args : SetArgs) :
      Took dev (.working (.setNamelist args)) dev (.leaving (.setNamelist args))
  | configures {dev : Device} {devset : Devset} (args : SetArgs) :
      dev.devset.whiteBlack = ipsNone → devset.whiteBlack ≠ ipsNone →
      devset.devHashtable.isSome →
      Took dev (.working (.setNamelist args)) { dev with devset := devset } .idle
  | fetches {dev dev' : Device} (args : FetchArgs) :
      dev'.devState = dev.devState → dev'.devset = dev.devset →
      Took dev (.working (.fetchInfo args)) dev' (.leaving (.fetchInfo args))
  | leaves {dev : Device} (c : Call) : Took dev (.leaving c) (set c.restored dev) .idle

theorem took_callAct (dev : Device) (pc : Pc) (act : Act) :
    Took dev pc (callAct jhash dev pc act).1 (callAct jhash dev pc act).2 := by
  cases act with
  | call c =>
      cases pc with
      | idle => exact .begins c
      | called | working | leaving => exact .stays
  | step =>
      cases pc with
      | idle => exact .stays
      | called c =>
          by_cases free : dev.devState = c.expected
          · simpa [callAct, cas, free] using Took.enters c free
          · simpa [callAct, cas, free, einval] using Took.refused c free
      | working c =>
          cases c with
          | setNamelist args =>
              rcases @setNamelistBody_cases jhash args dev with
                ⟨failed, same⟩ | ⟨done, unset, devset, after, configured, table⟩
              · simpa [callAct, Call.body, Call.restores, failed, same] using @Took.fails dev args
              · simpa [callAct, Call.body, Call.restores, done, after] using
                  Took.configures args unset configured table
          | fetchInfo args =>
              rcases fetchInfoBody_frame args dev with ⟨state, devset⟩
              simpa [callAct, Call.body, Call.restores] using
                Took.fetches args state devset
      | leaving c => exact .leaves c

end

end Linguafranca.Ipshark
