import Linguafranca.Ipshark.Exclusion

/-!
# The state word and the list

With no call in progress the state word tells whether a list is configured, as long as each
`RUN` is spared. Where a configuration that failed overwrites one, the fetch in progress
ends by writing `NAME_SET`, and a device without a list stays in that state: no request for
a list is accepted any more.
-/

namespace Linguafranca.Ipshark

open Run Interleaving

/-- Whether a `devset_add` has succeeded; its result is that of the body. -/
def addedStep (jhash : List UInt8 → UInt32 → UInt32) (s : Calls) (event : ℕ × Act)
    (added : Bool) : Bool :=
  match event.2, s.pc event.1 with
  | .step, .working (.setNamelist args) => added || (setNamelistBody jhash args s.shared).1 == 0
  | _, _ => added

/-- The device and whether a list was added tell the same, and a device without a list
accepts a valid one. -/
structure Agrees (jhash : List UInt8 → UInt32 → UInt32) (dev : Device) (added : Bool) : Prop where
  atOpen : dev.devState = .opened ↔ dev.devset.whiteBlack = ipsNone
  atNameSet : dev.devState = .nameSet ↔ added = true
  configurable : dev.devset.whiteBlack = ipsNone → ∀ args : SetArgs, args.Valid →
    (setNamelist jhash args dev).1 = 0 ∧
      (setNamelist jhash args dev).2.devset.whiteBlack ≠ ipsNone

/-- The calls, and whether a list was added. -/
abbrev addedRun (jhash : List UInt8 → UInt32 → UInt32) (dev : Device)
    (events : List (ℕ × Act)) : Calls × Bool :=
  run (observe (callStep jhash) (addedStep jhash)) (resting dev, false) events

section

variable {jhash : List UInt8 → UInt32 → UInt32} {s : Calls} {dev : Device} {added : Bool}
  {events : List (ℕ × Act)} {t : ℕ}

theorem devset_callAct {pc : Pc} {act : Act}
    (other : ¬(act = .step ∧ ∃ args, pc = .working (.setNamelist args))) :
    (callAct jhash dev pc act).1.devset = dev.devset := by
  cases act with
  | call c => cases pc <;> rfl
  | step =>
      cases pc with
      | idle => rfl
      | called c =>
          simp only [callAct, cas]
          split <;> rfl
      | working c =>
          cases c with
          | setNamelist args => exact absurd ⟨rfl, args, rfl⟩ other
          | fetchInfo args => exact (fetchInfoBody_frame args dev).2
      | leaving c => rfl

theorem addedStep_of_other {event : ℕ × Act}
    (other : ¬(event.2 = .step ∧ ∃ args, s.pc event.1 = .working (.setNamelist args))) :
    addedStep jhash s event added = added := by
  simp only [addedStep]
  split
  · next args act working => exact absurd ⟨act, args, working⟩ other
  · rfl

theorem added_step (s : Calls) (event : ℕ × Act)
    (known : added = true ↔ s.shared.devset.whiteBlack ≠ ipsNone) :
    addedStep jhash s event added = true ↔
      (callStep jhash s event).shared.devset.whiteBlack ≠ ipsNone := by
  rcases event with ⟨t, act⟩
  by_cases adding : act = .step ∧ ∃ args, s.pc t = .working (.setNamelist args)
  · rcases adding with ⟨rfl, args, working⟩
    rcases @setNamelistBody_cases jhash args s.shared with
      ⟨failed, same⟩ | ⟨done, unset, devset, after, configured, -⟩
    · simpa [addedStep, working, step, Threads.move, callAct, Call.body, failed, same] using known
    · simp [addedStep, working, step, Threads.move, callAct, Call.body, done, after, configured]
  · rw [addedStep_of_other adding, shared_step, devset_callAct adding]
    exact known

theorem setNamelist_valid {args : SetArgs} (valid : args.Valid) (free : dev.devState = .opened)
    (unset : dev.devset.whiteBlack = ipsNone) (table : dev.devset.devHashtable.isSome) :
    (setNamelist jhash args dev).1 = 0 ∧
      (setNamelist jhash args dev).2.devset.whiteBlack ≠ ipsNone := by
  rcases @setNamelistBody_valid jhash { dev with devState := .nameSet } args valid table unset with
    ⟨devset, done, configured⟩
  simp [setNamelist, cas, free, done, configured]

theorem inside_eq_empty_of_rest {part : Pc → Prop} (rest : AtRest s) (outside : ¬part .idle) :
    inside part s = ∅ := by
  apply Set.eq_empty_of_forall_notMem
  intro t
  rwa [mem_inside, rest t]

/-- What is known of the calls and of the list while each `RUN` is spared. -/
def Known (both : Calls × Bool) : Prop :=
  both.1.Exclusive ∧ (both.2 = true ↔ both.1.shared.devset.whiteBlack ≠ ipsNone)

theorem known_step (both : Calls × Bool) (event : ℕ × Act) (known : Known both)
    (spared : SpareRun both.1 event) :
    Known (observe (callStep jhash) (addedStep jhash) both event) :=
  ⟨exclusive_step both.1 event known.1 spared, added_step both.1 event known.2⟩

theorem known_resting (opened : Opened dev) : Known (resting dev, false) := by
  have inv := exclusive_resting opened
  rcases opened with ⟨args, closed, _, done⟩
  have unset := inv.unset (Or.inl (ipsOpen_opens done).1)
  refine ⟨inv, ?_⟩
  simp [unset]

theorem agrees_of_known (known : Known (s, added)) (rest : AtRest s) :
    Agrees jhash s.shared added := by
  rcases known with ⟨inv, told⟩
  have noSetter := @inside_eq_empty_of_rest s Setting rest (by simp [Setting])
  have noFetcher := @inside_eq_empty_of_rest s Fetching rest (by simp [Fetching])
  have notRun : s.shared.devState ≠ .run := by
    intro running
    have busy := inv.running running
    rw [noFetcher] at busy
    exact Set.not_nonempty_empty busy
  have atOpen : s.shared.devState = .opened ↔ s.shared.devset.whiteBlack = ipsNone := by
    constructor
    · intro free
      exact inv.unset (Or.inl free)
    · intro unset
      by_contra taken
      exact inv.configured taken noSetter unset
  refine ⟨atOpen, ?_, ?_⟩
  · rw [told, ne_eq, ← atOpen]
    cases word : s.shared.devState with
    | close => exact absurd word inv.notClosed
    | opened | nameSet => simp
    | run => exact absurd word notRun
  · intro unset args valid
    exact setNamelist_valid valid (atOpen.mpr unset) unset inv.table

/-! ## A configured word without a list -/

theorem solo_leaveFetching {pc : Pc} (fetching : Fetching pc) (dev : Device) :
    ∃ acts after, run (solo (callAct jhash)) (dev, pc) acts = (after, .idle) ∧
      after.devState = .nameSet ∧ after.devset = dev.devset := by
  rcases pc with _ | c | c | c
  · exact absurd fetching (by simp [Fetching])
  · exact absurd fetching (by simp [Fetching])
  · rcases c with args | args
    · exact absurd fetching (by simp [Fetching])
    · exact ⟨[.step, .step], _, rfl, rfl, (fetchInfoBody_frame args dev).2⟩
  · rcases c with args | args
    · exact absurd fetching (by simp [Fetching])
    · exact ⟨[.step], _, rfl, rfl, rfl⟩

/-- A thread that does not configure can finish in `NAME_SET`, which it leaves as it is. -/
theorem solo_finish {pc : Pc} (outside : ¬Setting pc) (word : dev.devState = .nameSet) :
    ∃ acts after, run (solo (callAct jhash)) (dev, pc) acts = (after, .idle) ∧
      after.devState = .nameSet ∧ after.devset = dev.devset := by
  rcases pc with _ | c | c | c
  · exact ⟨[], dev, rfl, word, rfl⟩
  · rcases c with args | args
    · refine ⟨[.step], dev, ?_, word, rfl⟩
      simp [solo, callAct, cas, Call.expected, word, einval]
    · have entered : solo (callAct jhash) (dev, .called (.fetchInfo args)) .step =
          ({ dev with devState := .run }, .working (.fetchInfo args)) := by
        simp [solo, callAct, cas, Call.expected, Call.taken, word]
      rcases @solo_leaveFetching jhash (.working (.fetchInfo args)) trivial
        { dev with devState := .run } with ⟨acts, after, finished⟩
      refine ⟨.step :: acts, after, ?_⟩
      rwa [run_cons, entered]
  · rcases c with args | args
    · exact absurd trivial outside
    · exact @solo_leaveFetching jhash (.working (.fetchInfo args)) trivial dev
  · rcases c with args | args
    · exact absurd trivial outside
    · exact @solo_leaveFetching jhash (.leaving (.fetchInfo args)) trivial dev

/-- With no configuration in progress, a fetch ends and then everybody else, and the word is
`NAME_SET`. -/
theorem rest_of_fetching (empty : inside Setting s = ∅)
    (unset : s.shared.devset.whiteBlack = ipsNone) (fetching : t ∈ inside Fetching s)
    {threads : List ℕ} (others : ∀ t ∉ threads, s.pc t = .idle) :
    ∃ events, AtRest (run (callStep jhash) s events) ∧
      (run (callStep jhash) s events).shared.devState = .nameSet ∧
      (run (callStep jhash) s events).shared.devset.whiteBlack = ipsNone := by
  have free : ∀ t, ¬Setting (s.pc t) := Set.eq_empty_iff_forall_notMem.mp empty
  rcases @solo_leaveFetching jhash _ fetching s.shared with
    ⟨acts, after, finished, afterWord, afterSet⟩
  have ended : run (callStep jhash) s (acts.map fun act => (t, act)) = s.move t after .idle := by
    rw [callStep, run_solo, finished]
  have afterUnset : after.devset.whiteBlack = ipsNone := by
    rw [afterSet]
    exact unset
  have afterEmpty : inside Setting (s.move t after .idle) = ∅ := by
    rw [inside_move_of_iff, empty]
    exact iff_of_false (by simp [Setting]) (free t)
  have afterIdle : ∀ t' ∉ threads, (s.move t after .idle).pc t' = .idle := by
    intro t' absent
    by_cases same : t' = t
    · rw [same, pc_move_self]
    · rw [pc_move_of_ne same]
      exact others t' absent
  have finishes : ∀ (dev : Device) (pc : Pc),
      dev.devState = .nameSet ∧ dev.devset.whiteBlack = ipsNone → ¬Setting pc →
      ∃ acts, ((run (solo (callAct jhash)) (dev, pc) acts).1.devState = .nameSet ∧
          (run (solo (callAct jhash)) (dev, pc) acts).1.devset.whiteBlack = ipsNone) ∧
        (run (solo (callAct jhash)) (dev, pc) acts).2 = .idle := by
    rintro dev pc ⟨word, unset⟩ outside
    rcases @solo_finish jhash dev pc outside word with ⟨acts, after, finished, word', same⟩
    refine ⟨acts, ?_⟩
    rw [finished]
    exact ⟨⟨word', by rwa [same]⟩, rfl⟩
  rcases @exists_rest _ _ _ (callAct jhash) _ Setting .idle
    (fun dev => dev.devState = .nameSet ∧ dev.devset.whiteBlack = ipsNone)
    (by simp [Setting]) finishes threads ⟨afterWord, afterUnset⟩ afterEmpty afterIdle with
    ⟨events, ⟨restWord, restUnset⟩, rest⟩
  refine ⟨(acts.map fun act => (t, act)) ++ events, ?_⟩
  rw [run_append, ended]
  exact ⟨rest, restWord, restUnset⟩

/-- After `set(OPEN)` in `RUN`, the calls in progress can all end, and the word is `NAME_SET`
without a list. -/
theorem unset_of_overwritten {args : SetArgs} (inv : s.Inv)
    (leaving : s.pc t = .leaving (.setNamelist args)) (word : s.shared.devState = .run)
    {threads : List ℕ} (others : ∀ t ∉ threads, s.pc t = .idle) :
    ∃ events, AtRest (run (callStep jhash) s ((t, .step) :: events)) ∧
      (run (callStep jhash) s ((t, .step) :: events)).shared.devState = .nameSet ∧
      (run (callStep jhash) s ((t, .step) :: events)).shared.devset.whiteBlack = ipsNone := by
  have setting : Setting (s.pc t) := by simp [leaving, Setting]
  have left : callStep jhash s (t, .step) = s.move t (set .opened s.shared) .idle := by
    simp [callStep, step, leaving, callAct, Call.restored]
  rcases inv.running word with ⟨other, fetching⟩
  have apart : other ≠ t := by
    rintro rfl
    simp [leaving, Fetching] at fetching
  rw [mem_inside, ← pc_move_of_ne apart] at fetching
  simp only [run_cons, left]
  apply rest_of_fetching _ _ fetching
  · intro t' absent
    by_cases same : t' = t
    · rw [same, pc_move_self]
    · rw [pc_move_of_ne same]
      exact others t' absent
  · exact inside_move_eq_empty inv.oneSetter setting (by simp [Setting])
  · exact inv.unset (Or.inr ⟨t, setting⟩)

/-- With no call in progress the word and the list agree in every run that spares each `RUN`,
and from the first step that does not they come to disagree. -/
theorem rest_agrees (opened : Opened dev) (events : List (ℕ × Act))
    (spared : Meets (callStep jhash) SpareRun (resting dev) events) :
    Always (observe (callStep jhash) (addedStep jhash))
        (fun both => AtRest both.1 → Agrees jhash both.1.shared both.2) (resting dev, false)
        events ∧
      ∀ event, ¬SpareRun (addedRun jhash dev events).1 event →
        ∃ more, AtRest (addedRun jhash dev (events ++ event :: more)).1 ∧
          ¬Agrees jhash (addedRun jhash dev (events ++ event :: more)).1.shared
            (addedRun jhash dev (events ++ event :: more)).2 := by
  constructor
  · apply always_of_invariant known_step
    · rintro ⟨s, added⟩ known rest
      exact agrees_of_known known rest
    · exact known_resting opened
    · exact (meets_observe_iff false).mpr spared
  · rintro ⟨t, act⟩ overwrites
    rw [run_observe_fst] at overwrites
    simp only [SpareRun, not_forall, not_not] at overwrites
    rcases overwrites with ⟨args, rfl, leaving, word⟩
    have inv := (exclusive_run opened spared).toCallsInv
    have others : ∀ t ∉ events.map Prod.fst,
        (run (callStep jhash) (resting dev) events).pc t = .idle := by
      intro t absent
      exact pc_run_of_not_mem absent (resting dev)
    rcases unset_of_overwritten inv leaving word others with ⟨more, rest, nameSet, unset⟩
    refine ⟨more, ?_⟩
    rw [run_observe_fst, run_append]
    refine ⟨rest, fun agrees => ?_⟩
    have free := agrees.atOpen.mpr unset
    rw [nameSet] at free
    cases free

end

/-! ## A run of two threads -/

/-- The refused request of thread 0 ends while thread 1 fetches, and then the fetch ends. -/
def stuckRun : List (ℕ × Act) :=
  [(0, .call (.setNamelist noNames)), (0, .step),
    (1, .call (.fetchInfo wholeFetch)), (1, .step),
    (0, .step), (0, .step),
    (1, .step), (1, .step)]

theorem atRest_stuckRun : AtRest (run (callStep constHash) (resting openDevice) stuckRun) := by
  intro t
  by_cases zero : t = 0
  · subst zero
    rfl
  · by_cases one : t = 1
    · subst one
      rfl
    · exact pc_run_of_not_mem (by simp [stuckRun, zero, one]) (resting openDevice)

/-- The device at rest has no list, is in `NAME_SET` and refuses a valid request. -/
theorem stuckRun_disagrees :
    Opened openDevice ∧ AtRest (addedRun constHash openDevice stuckRun).1 ∧
      ¬Agrees constHash (addedRun constHash openDevice stuckRun).1.shared
        (addedRun constHash openDevice stuckRun).2 ∧
      (setNamelist constHash oneName (addedRun constHash openDevice stuckRun).1.shared).1 =
        -einval := by
  rw [run_observe_fst]
  refine ⟨opened_openDevice, atRest_stuckRun, fun agrees => ?_, rfl⟩
  exact absurd (agrees.atOpen.mpr rfl) (by decide)

theorem rest_agrees_on_apartRun :
    Always (observe (callStep constHash) (addedStep constHash))
      (fun both => AtRest both.1 → Agrees constHash both.1.shared both.2)
      (resting openDevice, false) apartRun :=
  (rest_agrees opened_openDevice apartRun spareRun_apartRun).1

end Linguafranca.Ipshark
