import Linguafranca.Ipshark.Calls

/-!
# Fetches that exclude each other

At most one configuration is in progress, and it starts from a device without a list. Two
fetches exclude each other as long as no configuration that fails writes `OPEN` over the
`RUN` of a fetch (`SpareRun`). Where one does, the word no longer tells that a fetch is in
progress, and the next configuration lets a second fetch in.
-/

namespace Linguafranca.Ipshark

open Run Interleaving

/-- What the steps of the calls keep in every interleaving. -/
structure CallsInv (dev : Device) (setting fetching : Set ℕ) : Prop where
  notClosed : dev.devState ≠ .close
  table : dev.devset.devHashtable.isSome
  oneSetter : setting.Subsingleton
  openFree : dev.devState = .opened → setting = ∅
  unset : dev.devState = .opened ∨ setting.Nonempty → dev.devset.whiteBlack = ipsNone
  running : dev.devState = .run → fetching.Nonempty

/-- What they also keep while no `RUN` is overwritten. -/
structure Exclusive (dev : Device) (setting fetching : Set ℕ) : Prop
    extends CallsInv dev setting fetching where
  oneFetcher : fetching.Subsingleton
  fetcherRuns : fetching.Nonempty → dev.devState = .run
  configured : dev.devState ≠ .opened → setting = ∅ → dev.devset.whiteBlack ≠ ipsNone

/-- No `set(OPEN)` of a configuration that failed is executed in `RUN`. -/
def SpareRun (s : Calls) (event : ℕ × Act) : Prop :=
  ∀ args, event.2 = .step → s.pc event.1 = .leaving (.setNamelist args) →
    s.shared.devState ≠ .run

/-- The device after a successful `ips_open` of a closed device without a list. -/
def Opened (dev : Device) : Prop :=
  ∃ args closed, closed.devset.whiteBlack = ipsNone ∧ ipsOpen args closed = (0, dev)

/-- No call is in progress. -/
def AtRest (s : Calls) : Prop :=
  ∀ t, s.pc t = .idle

/-- The device with no call in progress. -/
def resting (dev : Device) : Calls :=
  ⟨dev, fun _ => .idle⟩

section Transitions

variable {dev dev' : Device} {setting fetching : Set ℕ} {t : ℕ}

theorem CallsInv.congr (inv : CallsInv dev setting fetching) (word : dev'.devState = dev.devState)
    (same : dev'.devset = dev.devset) : CallsInv dev' setting fetching := by
  rcases inv with ⟨notClosed, table, oneSetter, openFree, unset, running⟩
  exact ⟨by rwa [word], by rwa [same], oneSetter, by rwa [word], by rwa [word, same],
    by rwa [word]⟩

/-- The `cas` of `set_namelist`. -/
theorem CallsInv.enterSetting (inv : CallsInv dev setting fetching)
    (free : dev.devState = .opened) (t : ℕ) :
    CallsInv { dev with devState := .nameSet } (insert t setting) fetching := by
  have empty := inv.openFree free
  have unset := inv.unset (Or.inl free)
  refine ⟨by simp, inv.table, ?_, by simp, fun _ => unset, by simp⟩
  rw [empty, insert_empty_eq]
  exact Set.subsingleton_singleton

/-- The `cas` of `fetch_info`. -/
theorem CallsInv.enterFetching (inv : CallsInv dev setting fetching) (t : ℕ) :
    CallsInv { dev with devState := .run } setting (insert t fetching) := by
  refine ⟨by simp, inv.table, inv.oneSetter, by simp, ?_, fun _ => Set.insert_nonempty t fetching⟩
  rintro (impossible | busy)
  · cases impossible
  · exact inv.unset (Or.inr busy)

/-- A configuration that succeeds. -/
theorem CallsInv.configure {devset : Devset} (inv : CallsInv dev setting fetching)
    (busy : t ∈ setting) (table : devset.devHashtable.isSome) :
    CallsInv { dev with devset := devset } ∅ fetching := by
  have taken : dev.devState ≠ .opened := by
    intro free
    rw [inv.openFree free] at busy
    exact busy
  refine ⟨inv.notClosed, table, Set.subsingleton_empty, fun free => absurd free taken, ?_,
    inv.running⟩
  rintro (free | nonempty)
  · exact absurd free taken
  · exact absurd nonempty Set.not_nonempty_empty

/-- A configuration that failed. -/
theorem CallsInv.leaveSetting (inv : CallsInv dev setting fetching) (busy : t ∈ setting) :
    CallsInv (set .opened dev) ∅ fetching := by
  have unset := inv.unset (Or.inr ⟨t, busy⟩)
  exact ⟨by simp [set], inv.table, Set.subsingleton_empty, fun _ => rfl, fun _ => unset,
    by simp [set]⟩

/-- The `set` of `fetch_info`. -/
theorem CallsInv.leaveFetching (inv : CallsInv dev setting fetching) (left : Set ℕ) :
    CallsInv (set .nameSet dev) setting left := by
  refine ⟨by simp [set], inv.table, inv.oneSetter, by simp [set], ?_, by simp [set]⟩
  rintro (impossible | busy)
  · cases impossible
  · exact inv.unset (Or.inr busy)

theorem Exclusive.congr (inv : Exclusive dev setting fetching)
    (word : dev'.devState = dev.devState) (same : dev'.devset = dev.devset) :
    Exclusive dev' setting fetching :=
  ⟨inv.toCallsInv.congr word same, inv.oneFetcher, by rw [word]; exact inv.fetcherRuns,
    by rw [word, same]; exact inv.configured⟩

theorem Exclusive.noFetcher (inv : Exclusive dev setting fetching) (word : dev.devState ≠ .run) :
    fetching = ∅ := by
  apply Set.not_nonempty_iff_eq_empty.mp
  intro busy
  exact word (inv.fetcherRuns busy)

theorem Exclusive.enterSetting (inv : Exclusive dev setting fetching)
    (free : dev.devState = .opened) (t : ℕ) :
    Exclusive { dev with devState := .nameSet } (insert t setting) fetching := by
  have empty := inv.noFetcher (by simp [free])
  refine ⟨inv.toCallsInv.enterSetting free t, inv.oneFetcher, ?_, ?_⟩
  · intro busy
    rw [empty] at busy
    exact absurd busy Set.not_nonempty_empty
  · intro _ nobody
    exact absurd nobody (Set.insert_nonempty t setting).ne_empty

theorem Exclusive.enterFetching (inv : Exclusive dev setting fetching)
    (free : dev.devState = .nameSet) (t : ℕ) :
    Exclusive { dev with devState := .run } setting (insert t fetching) := by
  have empty := inv.noFetcher (by simp [free])
  refine ⟨inv.toCallsInv.enterFetching t, ?_, fun _ => rfl, ?_⟩
  · rw [empty, insert_empty_eq]
    exact Set.subsingleton_singleton
  · intro _ nobody
    exact inv.configured (by simp [free]) nobody

theorem Exclusive.configure {devset : Devset} (inv : Exclusive dev setting fetching)
    (busy : t ∈ setting) (table : devset.devHashtable.isSome)
    (configured : devset.whiteBlack ≠ ipsNone) :
    Exclusive { dev with devset := devset } ∅ fetching :=
  ⟨inv.toCallsInv.configure busy table, inv.oneFetcher, inv.fetcherRuns, fun _ _ => configured⟩

theorem Exclusive.leaveSetting (inv : Exclusive dev setting fetching) (busy : t ∈ setting)
    (spared : dev.devState ≠ .run) : Exclusive (set .opened dev) ∅ fetching := by
  refine ⟨inv.toCallsInv.leaveSetting busy, inv.oneFetcher, ?_, fun taken => absurd rfl taken⟩
  rw [inv.noFetcher spared]
  exact fun nonempty => absurd nonempty Set.not_nonempty_empty

theorem Exclusive.leaveFetching (inv : Exclusive dev setting fetching) (busy : t ∈ fetching) :
    Exclusive (set .nameSet dev) setting ∅ := by
  refine ⟨inv.toCallsInv.leaveFetching ∅, Set.subsingleton_empty,
    fun nonempty => absurd nonempty Set.not_nonempty_empty, ?_⟩
  intro _ nobody
  apply inv.configured ?_ nobody
  rw [inv.fetcherRuns ⟨t, busy⟩]
  simp

/-- A step, on the device and the threads in the two calls. A configuration that failed may
end in some states only. -/
inductive Moved (may : DevState → Prop) (t : ℕ) :
    Device → Set ℕ → Set ℕ → Device → Set ℕ → Set ℕ → Prop where
  | keeps {dev dev' : Device} {setting fetching : Set ℕ} :
      dev'.devState = dev.devState → dev'.devset = dev.devset →
      Moved may t dev setting fetching dev' setting fetching
  | entersSetting {dev : Device} {setting fetching : Set ℕ} : dev.devState = .opened →
      Moved may t dev setting fetching { dev with devState := .nameSet } (insert t setting) fetching
  | entersFetching {dev : Device} {setting fetching : Set ℕ} : dev.devState = .nameSet →
      Moved may t dev setting fetching { dev with devState := .run } setting (insert t fetching)
  | configures {dev : Device} {setting fetching : Set ℕ} {devset : Devset} : t ∈ setting →
      devset.whiteBlack ≠ ipsNone → devset.devHashtable.isSome →
      Moved may t dev setting fetching { dev with devset := devset } (setting \ {t}) fetching
  | leavesSetting {dev : Device} {setting fetching : Set ℕ} : t ∈ setting → may dev.devState →
      Moved may t dev setting fetching (set .opened dev) (setting \ {t}) fetching
  | leavesFetching {dev : Device} {setting fetching : Set ℕ} : t ∈ fetching →
      Moved may t dev setting fetching (set .nameSet dev) setting (fetching \ {t})

theorem moved_of_took {may : DevState → Prop} {s : Calls} {dev : Device} {pc : Pc}
    (took : Took s.shared (s.pc t) dev pc)
    (allowed : ∀ args, s.pc t = .leaving (.setNamelist args) → pc = .idle →
      may s.shared.devState) :
    Moved may t s.shared (inside Setting s) (inside Fetching s) dev
      (inside Setting (s.move t dev pc)) (inside Fetching (s.move t dev pc)) := by
  generalize here : s.pc t = before at took allowed
  generalize s.shared = old at took allowed
  cases took with
  | stays | begins | refused =>
      rw [inside_move_of_iff (by simp [here, Setting]),
        inside_move_of_iff (by simp [here, Fetching])]
      exact .keeps rfl rfl
  | enters c free =>
      cases c with
      | setNamelist args =>
          rw [inside_move_of_inside (by simp [Setting]),
            inside_move_of_iff (by simp [here, Fetching])]
          exact .entersSetting free
      | fetchInfo args =>
          rw [inside_move_of_iff (by simp [here, Setting]),
            inside_move_of_inside (by simp [Fetching])]
          exact .entersFetching free
  | fails args =>
      rw [inside_move_of_iff (by simp [here, Setting]),
        inside_move_of_iff (by simp [here, Fetching])]
      exact .keeps rfl rfl
  | configures args unset configured table =>
      rw [inside_move_of_outside (by simp [Setting]),
        inside_move_of_iff (by simp [here, Fetching])]
      exact .configures (by simp [here, Setting]) configured table
  | fetches args word same =>
      rw [inside_move_of_iff (by simp [here, Setting]),
        inside_move_of_iff (by simp [here, Fetching])]
      exact .keeps word same
  | leaves c =>
      cases c with
      | setNamelist args =>
          rw [inside_move_of_outside (by simp [Setting]),
            inside_move_of_iff (by simp [here, Fetching])]
          exact .leavesSetting (by simp [here, Setting]) (allowed args rfl rfl)
      | fetchInfo args =>
          rw [inside_move_of_iff (by simp [here, Setting]),
            inside_move_of_outside (by simp [Fetching])]
          exact .leavesFetching (by simp [here, Fetching])

theorem CallsInv.moved {may : DevState → Prop} {setting' fetching' : Set ℕ}
    (inv : CallsInv dev setting fetching)
    (moved : Moved may t dev setting fetching dev' setting' fetching') :
    CallsInv dev' setting' fetching' := by
  cases moved with
  | keeps word same => exact inv.congr word same
  | entersSetting free => exact inv.enterSetting free t
  | entersFetching => exact inv.enterFetching t
  | configures busy _ table =>
      rw [inv.oneSetter.eq_singleton_of_mem busy, Set.sdiff_self]
      exact inv.configure busy table
  | leavesSetting busy =>
      rw [inv.oneSetter.eq_singleton_of_mem busy, Set.sdiff_self]
      exact inv.leaveSetting busy
  | leavesFetching => exact inv.leaveFetching _

theorem Exclusive.moved {setting' fetching' : Set ℕ} (inv : Exclusive dev setting fetching)
    (moved : Moved (· ≠ .run) t dev setting fetching dev' setting' fetching') :
    Exclusive dev' setting' fetching' := by
  cases moved with
  | keeps word same => exact inv.congr word same
  | entersSetting free => exact inv.enterSetting free t
  | entersFetching free => exact inv.enterFetching free t
  | configures busy configured table =>
      rw [inv.oneSetter.eq_singleton_of_mem busy, Set.sdiff_self]
      exact inv.configure busy table configured
  | leavesSetting busy spared =>
      rw [inv.oneSetter.eq_singleton_of_mem busy, Set.sdiff_self]
      exact inv.leaveSetting busy spared
  | leavesFetching busy =>
      rw [inv.oneFetcher.eq_singleton_of_mem busy, Set.sdiff_self]
      exact inv.leaveFetching busy

end Transitions

/-! ## Runs -/

/-- The invariant, of a device and the calls on it. -/
abbrev Calls.Inv (s : Calls) : Prop :=
  CallsInv s.shared (inside Setting s) (inside Fetching s)

/-- The rules hold of the device and of the calls that configure it and fetch from it. -/
abbrev Calls.Exclusive (s : Calls) : Prop :=
  Ipshark.Exclusive s.shared (inside Setting s) (inside Fetching s)

section Runs

variable {jhash : List UInt8 → UInt32 → UInt32} {s : Calls} {dev : Device}
  {events : List (ℕ × Act)}

theorem callsInv_step (s : Calls) (event : ℕ × Act) (inv : s.Inv) :
    (callStep jhash s event).Inv := by
  have took := @took_callAct jhash s.shared (s.pc event.1) event.2
  have moved := @moved_of_took _ (fun _ => True) s _ _ took fun _ _ _ => trivial
  exact inv.moved moved

theorem exclusive_step (s : Calls) (event : ℕ × Act) (inv : s.Exclusive)
    (spared : SpareRun s event) : (callStep jhash s event).Exclusive := by
  rcases event with ⟨t, act⟩
  have took := @took_callAct jhash s.shared (s.pc t) act
  apply inv.moved
  apply moved_of_took took
  intro args leaving idle
  cases act with
  | call c => simp [leaving, callAct] at idle
  | step => exact spared args rfl leaving

theorem ipsOpen_opens {args : OpenArgs} {closed : Device} (done : ipsOpen args closed = (0, dev)) :
    dev.devState = .opened ∧ dev.devset.devHashtable.isSome ∧
      dev.devset.whiteBlack = closed.devset.whiteBlack := by
  have opens := opens_ipsOpen args closed
  rw [done] at opens
  generalize both : ((0 : Int), dev) = result at opens
  cases opens with
  | refused busy => simp [einval] at both
  | noTable free refused => simp [enomem] at both
  | noQueue queue free refused none => simp [enomem] at both
  | opens free allocated =>
      obtain ⟨-, rfl⟩ := Prod.mk.inj both
      exact ⟨rfl, rfl, rfl⟩

theorem exclusive_resting (opened : Opened dev) : (resting dev).Exclusive := by
  rcases opened with ⟨args, closed, unset, done⟩
  rcases ipsOpen_opens done with ⟨word, table, same⟩
  have setting : inside Setting (resting dev) = ∅ := rfl
  have fetching : inside Fetching (resting dev) = ∅ := rfl
  refine ⟨⟨by simp [resting, word], table, ?_, fun _ => setting, fun _ => ?_, ?_⟩, ?_, ?_, ?_⟩
  · rw [setting]
    exact Set.subsingleton_empty
  · exact same.trans unset
  · intro running
    simp [resting, word] at running
  · rw [fetching]
    exact Set.subsingleton_empty
  · intro busy
    rw [fetching] at busy
    exact absurd busy Set.not_nonempty_empty
  · intro taken
    exact absurd word taken

/-- Configurations exclude each other in every run, and `OPEN` means that there is none and
no list. -/
theorem setting_run (opened : Opened dev) (events : List (ℕ × Act)) :
    (inside Setting (run (callStep jhash) (resting dev) events)).Subsingleton ∧
      ((run (callStep jhash) (resting dev) events).shared.devState = .opened →
        inside Setting (run (callStep jhash) (resting dev) events) = ∅ ∧
          (run (callStep jhash) (resting dev) events).shared.devset.whiteBlack = ipsNone) := by
  have inv : (run (callStep jhash) (resting dev) events).Inv :=
    invariant_of_step callsInv_step events (exclusive_resting opened).toCallsInv
  exact ⟨inv.oneSetter, fun free => ⟨inv.openFree free, inv.unset (Or.inl free)⟩⟩

theorem exclusive_run (opened : Opened dev)
    (spared : Meets (callStep jhash) SpareRun (resting dev) events) :
    (run (callStep jhash) (resting dev) events).Exclusive :=
  invariant exclusive_step (exclusive_resting opened) spared

/-! ## Overwriting the word -/

theorem solo_configure {args : SetArgs} (valid : args.Valid) (free : dev.devState = .opened)
    (unset : dev.devset.whiteBlack = ipsNone) (table : dev.devset.devHashtable.isSome) :
    ∃ devset : Devset, devset.whiteBlack ≠ ipsNone ∧
      run (solo (callAct jhash)) (dev, .idle) [.call (.setNamelist args), .step, .step] =
        ({ dev with devState := .nameSet, devset := devset }, .idle) := by
  rcases @setNamelistBody_valid jhash { dev with devState := .nameSet } args valid table unset with
    ⟨devset, done, configured⟩
  refine ⟨devset, configured, ?_⟩
  simp [solo, callAct, cas, Call.expected, Call.taken, Call.body, Call.restores, free, done]

theorem solo_enterFetching (args : FetchArgs) (free : dev.devState = .nameSet) :
    run (solo (callAct jhash)) (dev, .idle) [.call (.fetchInfo args), .step] =
      ({ dev with devState := .run }, .working (.fetchInfo args)) := by
  simp [solo, callAct, cas, Call.expected, Call.taken, free]

/-- A request for a list of one name. -/
def oneName : SetArgs :=
  { copyList := 0
    whiteBlack := ipsWhite
    devnum := 1
    accessOk := true
    vmalloc := true
    copyNames := 0
    names := fun _ => eth0
    kmalloc := fun _ => true }

theorem valid_oneName : oneName.Valid :=
  ⟨rfl, by decide, by decide, rfl, rfl, rfl⟩

/-- A fetch of all records that fit into the array. -/
def wholeFetch : FetchArgs :=
  { copySet := 0
    n := 1024
    buf := true
    waited := 1
    accessOk := true
    copyArray := 0
    copyBack := 0 }

/-- After `set(OPEN)` in `RUN`, the next configuration and fetch of the thread overlap the
fetch in progress. -/
theorem overlap_of_overwritten {t : ℕ} {args valid : SetArgs} (fetch : FetchArgs) (inv : s.Inv)
    (isValid : valid.Valid) (leaving : s.pc t = .leaving (.setNamelist args))
    (word : s.shared.devState = .run) :
    ∃ events,
      ¬(inside Fetching (run (callStep jhash) s ((t, .step) :: events))).Subsingleton := by
  rcases inv.running word with ⟨other, fetching⟩
  have apart : other ≠ t := by
    rintro rfl
    simp [leaving, Fetching] at fetching
  have unset : (set .opened s.shared).devset.whiteBlack = ipsNone :=
    inv.unset (Or.inr ⟨t, by simp [leaving, Setting]⟩)
  rcases @solo_configure jhash (set .opened s.shared) valid isValid rfl unset inv.table with
    ⟨devset, _, configured⟩
  have left : solo (callAct jhash) (s.shared, s.pc t) .step = (set .opened s.shared, .idle) := by
    simp [solo, leaving, callAct, Call.restored]
  let configure : List Act := [.call (.setNamelist valid), .step, .step]
  let enter : List Act := [.call (.fetchInfo fetch), .step]
  have alone := @run_solo _ _ _ (callAct jhash) s t (.step :: (configure ++ enter))
  rw [run_cons, left, run_append, configured, solo_enterFetching fetch rfl] at alone
  let events : List (ℕ × Act) := (configure ++ enter).map fun act => (t, act)
  refine ⟨events, ?_⟩
  intro one
  rw [← List.map_cons, callStep, alone] at one
  apply apart
  apply one
  · rwa [mem_inside, pc_move_of_ne apart]
  · rw [mem_inside, pc_move_self]
    trivial

/-- The runs that spare each `RUN` keep fetches apart, and the first step that does not
lets two fetches in. -/
theorem fetches_exclude (opened : Opened dev) (events : List (ℕ × Act))
    (spared : Meets (callStep jhash) SpareRun (resting dev) events) :
    Always (callStep jhash) (fun s => (inside Fetching s).Subsingleton) (resting dev) events ∧
      ∀ event, ¬SpareRun (run (callStep jhash) (resting dev) events) event →
        ∃ more, ¬(inside Fetching
          (run (callStep jhash) (resting dev) (events ++ event :: more))).Subsingleton := by
  constructor
  · exact always_of_invariant exclusive_step (fun s inv => inv.oneFetcher)
      (exclusive_resting opened) spared
  · rintro ⟨t, act⟩ overwrites
    simp only [SpareRun, not_forall, not_not] at overwrites
    rcases overwrites with ⟨args, rfl, leaving, word⟩
    have inv := (exclusive_run opened spared).toCallsInv
    rcases overlap_of_overwritten wholeFetch inv valid_oneName leaving word with ⟨more, overlap⟩
    refine ⟨more, ?_⟩
    rwa [run_append]

end Runs

/-! ## Two runs of three threads -/

/-- A hash function for the examples. -/
def constHash (_bytes : List UInt8) (_initval : UInt32) : UInt32 :=
  0

/-- The module with no file open. -/
def closedDevice : Device :=
  { devState := .close
    devset := ⟨none, ipsNone⟩
    ipQueue := ⟨none, 0, 0, 0⟩
    hooks := false
    arr := fun _ =>
      ⟨Bytes.zero 16, Bytes.zero 16, Bytes.zero 16, Bytes.zero 16, 0, 0, 0, 0, 0, 0⟩ }

/-- The device after it was opened. -/
def openDevice : Device :=
  (ipsOpen ⟨true, true, [true, true]⟩ closedDevice).2

theorem opened_openDevice : Opened openDevice :=
  ⟨⟨true, true, [true, true]⟩, closedDevice, rfl, rfl⟩

/-- A request for a list without names, which is refused. -/
def noNames : SetArgs :=
  { oneName with devnum := 0 }

/-- The refused request of thread 0 ends while thread 1 fetches; then thread 0 starts to
configure again and thread 2 fetches too. -/
def overlapRun : List (ℕ × Act) :=
  [(0, .call (.setNamelist noNames)), (0, .step),
    (1, .call (.fetchInfo wholeFetch)), (1, .step),
    (0, .step), (0, .step),
    (0, .call (.setNamelist oneName)), (0, .step),
    (2, .call (.fetchInfo wholeFetch)), (2, .step)]

theorem overlapRun_overlaps :
    Opened openDevice ∧
      ¬(inside Fetching
        (run (callStep constHash) (resting openDevice) overlapRun)).Subsingleton := by
  refine ⟨opened_openDevice, fun one => ?_⟩
  have first : 1 ∈ inside Fetching (run (callStep constHash) (resting openDevice) overlapRun) := by
    rw [mem_inside]
    trivial
  have second : 2 ∈ inside Fetching (run (callStep constHash) (resting openDevice) overlapRun) := by
    rw [mem_inside]
    trivial
  exact absurd (one first second) (by decide)

/-- The refused request ends before anybody fetches. -/
def apartRun : List (ℕ × Act) :=
  [(0, .call (.setNamelist noNames)), (0, .step), (0, .step), (0, .step),
    (1, .call (.setNamelist oneName)), (1, .step), (1, .step),
    (2, .call (.fetchInfo wholeFetch)), (2, .step)]

theorem spareRun_apartRun :
    Meets (callStep constHash) SpareRun (resting openDevice) apartRun := by
  refine ⟨?_, ?_, ?_, ?_, ?_, ?_, ?_, ?_, ?_, trivial⟩
  all_goals
    intro args _ leaving
    cases leaving <;> decide

theorem fetches_exclude_on_apartRun :
    Always (callStep constHash) (fun s => (inside Fetching s).Subsingleton) (resting openDevice)
      apartRun :=
  (fetches_exclude opened_openDevice apartRun spareRun_apartRun).1

end Linguafranca.Ipshark
