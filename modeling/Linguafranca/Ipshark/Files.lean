import Linguafranca.Ipshark.Exclusion

/-!
# Opens and releases that interleave

Each file is opened and released in atomic steps, and the steps of different files come in
any order. `ips_release` publishes `CLOSE` before it tears anything down, so the `cas` of
another open can pass in between. As long as none does, there is at most one file that is
not idle, and it has what its next step needs.
-/

namespace Linguafranca.Ipshark

open Run Interleaving

/-- Where a file is: not open, before `devset_init`, `ip_queue_init` or `hook_register`,
before the `devset_exit` of a failed open, open, and before `hook_unregister`,
`ip_queue_exit` or `devset_exit` of the release. -/
inductive FilePc where
  | idle
  | initTable (args : OpenArgs)
  | initQueue (args : OpenArgs)
  | registering
  | undoing
  | opened
  | unregistering
  | exitQueue
  | exitTable

/-- An `open`, the `release` of an open file, or the next step of the call in progress. -/
inductive FileAct where
  | open (args : OpenArgs)
  | release
  | step

/-- The steps of `ips_open` and of `ips_release`. -/
def fileAct (dev : Device) : FilePc → FileAct → Device × FilePc
  | .idle, .open args =>
      let entered := cas .close .opened dev
      (entered.2, if entered.1 = 0 then .initTable args else .idle)
  | .initTable args, .step =>
      let devset := devsetInit args.kmalloc dev.devset
      ({ dev with devset := devset.2 }, if devset.1 = 0 then .initQueue args else .idle)
  | .initQueue args, .step =>
      let queue := ipQueueInit args.allocPercpu args.vmalloc dev.ipQueue
      ({ dev with ipQueue := queue.2 }, if queue.1 = 0 then .registering else .undoing)
  | .registering, .step => ({ dev with hooks := true }, .opened)
  | .undoing, .step => ({ dev with devset := devsetExit dev.devset }, .idle)
  | .opened, .release => ({ dev with devState := .close }, .unregistering)
  | .unregistering, .step => ({ dev with hooks := false }, .exitQueue)
  | .exitQueue, .step => ({ dev with ipQueue := ipQueueExit dev.ipQueue }, .exitTable)
  | .exitTable, .step => ({ dev with devset := devsetExit dev.devset }, .idle)
  | pc, _ => (dev, pc)

/-- The open files of the device, one thread each. -/
abbrev Files : Type :=
  Threads Device FilePc

/-- One step of one of the files. -/
abbrev filesStep : Files → ℕ × FileAct → Files :=
  step fileAct

/-- Between the first and the last step of the release. -/
def Releasing : FilePc → Prop
  | .unregistering | .exitQueue | .exitTable => True
  | _ => False

/-- The next step is a `devset_exit`. -/
def Exiting : FilePc → Prop
  | .undoing | .exitTable => True
  | _ => False

/-- No `devset_exit` is run on a NULL table. -/
def ExitsTable (s : Files) (event : ℕ × FileAct) : Prop :=
  event.2 = .step → Exiting (s.pc event.1) → s.shared.devset.devHashtable.isSome

/-- The device has what an open file needs. -/
structure Ready (dev : Device) : Prop where
  table : dev.devset.devHashtable.isSome
  fifo : dev.ipQueue.ipFifo.isSome
  hooks : dev.hooks = true

/-- An open file finds the device ready. -/
def OpenReady (s : Files) : Prop :=
  ∀ t, s.pc t = .opened → Ready s.shared

/-- No open passes its `cas` while a file is being released. -/
def OpensApart (s : Files) (event : ℕ × FileAct) : Prop :=
  ∀ args, event.2 = .open args → s.pc event.1 = .idle → s.shared.devState = .close →
    inside Releasing s = ∅

/-- The file is open or in a call. -/
def NotIdle (pc : FilePc) : Prop :=
  pc ≠ .idle

/-- What a file relies on at its place. -/
def Holds (dev : Device) : FilePc → Prop
  | .idle => True
  | .initTable _ => dev.devState = .opened
  | .initQueue _ => dev.devState = .opened ∧ dev.devset.devHashtable.isSome
  | .registering => dev.devState = .opened ∧ dev.devset.devHashtable.isSome ∧
      dev.ipQueue.ipFifo.isSome
  | .undoing => dev.devState = .opened ∧ dev.devset.devHashtable.isSome
  | .opened => dev.devState = .opened ∧ Ready dev
  | .unregistering | .exitQueue | .exitTable => dev.devset.devHashtable.isSome

/-- At most one file is not idle, and it has what it relies on. -/
structure FilesInv (s : Files) : Prop where
  one : (inside NotIdle s).Subsingleton
  holds : ∀ t, Holds s.shared (s.pc t)

section

variable {s : Files} {dev : Device} {t : ℕ} {pc : FilePc} {events : List (ℕ × FileAct)}

/-! ## Files alone -/

theorem solo_open (args : OpenArgs) (dev : Device) :
    run (solo fileAct) (dev, .idle) [.open args, .step, .step, .step] =
      ((ipsOpen args dev).2, if (ipsOpen args dev).1 = 0 then .opened else .idle) := by
  simp only [run_cons, run_nil, solo, fileAct, ipsOpen, cas]
  by_cases free : dev.devState = .close
  · simp only [free, if_true, ne_eq, not_true_eq_false, if_false]
    by_cases table : (devsetInit args.kmalloc dev.devset).1 = 0
    · simp only [table, if_true, not_true_eq_false, if_false]
      by_cases queue : (ipQueueInit args.allocPercpu args.vmalloc dev.ipQueue).1 = 0
      · simp [queue]
      · simp [queue]
    · simp [table]
  · simp [free, einval]

theorem solo_release (dev : Device) :
    run (solo fileAct) (dev, .opened) [.release, .step, .step, .step] =
      ((ipsRelease dev).2, .idle) :=
  rfl

/-! ## One step -/

theorem ipQueueInit_isSome {allocPercpu : Bool} {vmalloc : List Bool} {q : IpQueue}
    (done : (ipQueueInit allocPercpu vmalloc q).1 = 0) :
    (ipQueueInit allocPercpu vmalloc q).2.ipFifo.isSome := by
  simp only [ipQueueInit] at done ⊢
  by_cases percpu : allocPercpu
  · by_cases fifos : vmalloc.all id
    · simp [percpu, fifos]
    · simp [percpu, fifos, enomem] at done
  · simp [percpu, enomem] at done

theorem holds_fileAct (act : FileAct) (busy : pc ≠ .idle) (holds : Holds dev pc) :
    Holds (fileAct dev pc act).1 (fileAct dev pc act).2 := by
  cases act with
  | «open» args =>
      cases pc with
      | idle => exact absurd rfl busy
      | _ => exact holds
  | release =>
      cases pc with
      | opened => exact holds.2.table
      | _ => exact holds
  | step =>
      cases pc with
      | idle | opened => exact holds
      | initTable args =>
          by_cases table : args.kmalloc
          · simpa [fileAct, devsetInit, table, Holds] using holds
          · simp [fileAct, devsetInit, table, Holds, enomem]
      | initQueue args =>
          by_cases queue : (ipQueueInit args.allocPercpu args.vmalloc dev.ipQueue).1 = 0
          · simp only [fileAct, queue, if_true]
            exact ⟨holds.1, holds.2, ipQueueInit_isSome queue⟩
          · simp only [fileAct, queue, if_false]
            exact holds
      | registering => exact ⟨holds.1, holds.2.1, holds.2.2, rfl⟩
      | undoing | exitTable => exact trivial
      | unregistering | exitQueue => exact holds

/-- Files that are not idle in `CLOSE` are being released. -/
theorem releasing_of_holds (holds : Holds dev pc) (closed : dev.devState = .close)
    (busy : pc ≠ .idle) : Releasing pc := by
  cases pc with
  | idle => exact absurd rfl busy
  | initTable => simp [Holds, closed] at holds
  | initQueue | registering | undoing | opened => simp [Holds, closed] at holds
  | unregistering | exitQueue | exitTable => trivial

theorem filesInv_move (alone : ∀ t' ≠ t, s.pc t' = .idle)
    (holds : Holds dev pc) : FilesInv (s.move t dev pc) := by
  have others : ∀ t' ≠ t, (s.move t dev pc).pc t' = .idle := by
    intro t' other
    rw [pc_move_of_ne other]
    exact alone t' other
  constructor
  · intro first firstBusy second secondBusy
    have isT : ∀ t' ∈ inside NotIdle (s.move t dev pc), t' = t := by
      intro t' busy
      by_contra other
      exact busy (others t' other)
    rw [isT first firstBusy, isT second secondBusy]
  · intro t'
    by_cases same : t' = t
    · subst same
      rwa [shared_move, pc_move_self]
    · rw [others t' same]
      trivial

theorem filesInv_step (s : Files) (event : ℕ × FileAct) (inv : FilesInv s)
    (apart : OpensApart s event) : FilesInv (filesStep s event) := by
  rcases event with ⟨t, act⟩
  by_cases busy : s.pc t = .idle
  · cases act with
    | «open» args =>
        by_cases closed : s.shared.devState = .close
        · apply filesInv_move
          · intro t' _
            by_contra busy'
            have releasing := releasing_of_holds (inv.holds t') closed busy'
            have none := apart args rfl busy closed
            exact Set.eq_empty_iff_forall_notMem.mp none t' releasing
          · simp [busy, fileAct, cas, closed, Holds]
        · rw [filesStep, step_eq_self]
          · exact inv
          · simp [busy, fileAct, cas, closed, einval]
    | release | step =>
        rw [filesStep, step_eq_self]
        · exact inv
        · rw [busy]
          rfl
  · apply filesInv_move
    · intro t' other
      by_contra busy'
      exact other (inv.one busy' busy)
    · exact holds_fileAct act busy (inv.holds t)

/-! ## Runs -/

theorem FilesInv.openReady (inv : FilesInv s) : OpenReady s := by
  intro t opened
  have holds := inv.holds t
  rw [opened] at holds
  exact holds.2

theorem FilesInv.exitsTable (inv : FilesInv s) (event : ℕ × FileAct) : ExitsTable s event := by
  intro _ exiting
  have holds := inv.holds event.1
  cases here : s.pc event.1 <;> simp only [here, Exiting] at exiting
  · rw [here] at holds
    exact holds.2
  · rw [here] at holds
    exact holds

/-- The module is loaded and no file is open. -/
def loaded : Files :=
  ⟨closedDevice, fun _ => .idle⟩

theorem filesInv_loaded : FilesInv loaded := by
  constructor
  · intro first busy
    exact absurd rfl busy
  · exact fun _ => trivial

/-- A file that is being released comes to its `devset_exit` without touching the table. -/
theorem exists_exitTable (releasing : Releasing pc) (dev : Device) :
    ∃ (steps : List FileAct) (dev' : Device),
      run (solo fileAct) (dev, pc) steps = (dev', .exitTable) ∧ dev'.devset = dev.devset := by
  cases pc with
  | unregistering => exact ⟨[.step, .step], _, rfl, rfl⟩
  | exitQueue => exact ⟨[.step], _, rfl, rfl⟩
  | exitTable => exact ⟨[], _, rfl, rfl⟩
  | _ => exact absurd releasing not_false

theorem run_filesStep (s : Files) (t : ℕ) (acts : List FileAct) :
    run filesStep s (acts.map fun act => (t, act)) =
      s.move t (run (solo fileAct) (s.shared, s.pc t) acts).1
        (run (solo fileAct) (s.shared, s.pc t) acts).2 :=
  run_solo s t acts

/-- The `devset_exit` of a release takes the table away from an open file. -/
theorem not_openReady_of_exitTable {u : ℕ} (apart : u ≠ t) (opened : s.pc t = .opened)
    (exiting : s.pc u = .exitTable) : ¬OpenReady (filesStep s (u, .step)) := by
  intro ready
  have still : (filesStep s (u, .step)).pc t = .opened := by
    rw [← opened]
    exact pc_move_of_ne apart.symm
  have table := (ready t still).table
  rw [shared_step, exiting] at table
  simp [fileAct, devsetExit] at table

/-- An open that fails leaves no table to the release in progress. -/
theorem no_table_of_failed {args : OpenArgs} (closed : dev.devState = .close)
    (failed : (ipsOpen args dev).1 ≠ 0) : (ipsOpen args dev).2.devset.devHashtable = none := by
  have opens := opens_ipsOpen args dev
  generalize ipsOpen args dev = done at opens failed
  cases opens with
  | refused taken => exact absurd closed taken
  | noTable => rfl
  | noQueue => rfl
  | opens => exact absurd rfl failed

/-- After an open that passes its `cas` during a release, both can go on until a table is
missed. -/
theorem missed_of_open_amid {event : ℕ × FileAct} (amid : ¬OpensApart s event) :
    ∃ more, ¬(Meets filesStep ExitsTable s (event :: more) ∧
      Always filesStep OpenReady s (event :: more)) := by
  rcases event with ⟨t, act⟩
  simp only [OpensApart, not_forall] at amid
  rcases amid with ⟨args, rfl, idle, closed, some⟩
  rcases Set.nonempty_iff_ne_empty.mpr some with ⟨u, releasing⟩
  rw [mem_inside] at releasing
  have apart : u ≠ t := by
    rintro rfl
    rw [idle] at releasing
    exact releasing
  -- first the open runs to its end, then the release up to its `devset_exit`
  have opened := run_filesStep s t [.open args, .step, .step, .step]
  rw [idle, solo_open] at opened
  generalize at1 : run filesStep s ([.open args, .step, .step, .step].map fun act => (t, act)) = s1
    at opened
  have here : s1.pc u = s.pc u := by
    rw [opened]
    exact pc_move_of_ne apart
  rcases exists_exitTable (here ▸ releasing) s1.shared with ⟨steps, dev, exits, same⟩
  have exiting := run_filesStep s1 u steps
  rw [exits] at exiting
  let own : List (ℕ × FileAct) := [.step, .step, .step].map fun act => (t, act)
  let theirs : List (ℕ × FileAct) := steps.map fun act => (u, act)
  let last : ℕ × FileAct := (u, .step)
  refine ⟨own ++ (theirs ++ [last]), ?_⟩
  have split : (t, .open args) :: (own ++ (theirs ++ [last])) =
      ([.open args, .step, .step, .step].map fun act => (t, act)) ++ (theirs ++ [last]) :=
    rfl
  rw [split, meets_append, always_append, at1, meets_append, always_append, exiting]
  rintro ⟨⟨-, -, exit, -⟩, -, -, ready⟩
  by_cases done : (ipsOpen args s.shared).1 = 0
  · apply not_openReady_of_exitTable apart _ pc_move_self (last_of_always ready)
    rw [pc_move_of_ne apart.symm, opened, pc_move_self, if_pos done]
  · have table := exit rfl (by rw [pc_move_self]; trivial)
    rw [shared_move, same, opened, shared_move, no_table_of_failed closed done] at table
    simp at table

/-- Where opens keep apart from releases, no table is missed, and any run can go on from the
first open that does not until one is. -/
theorem files_keep (apart : Meets filesStep OpensApart loaded events) :
    Meets filesStep ExitsTable loaded events ∧ Always filesStep OpenReady loaded events ∧
      ∀ event, ¬OpensApart (run filesStep loaded events) event →
        ∃ more, ¬(Meets filesStep ExitsTable loaded (events ++ event :: more) ∧
          Always filesStep OpenReady loaded (events ++ event :: more)) := by
  refine ⟨?_, ?_, ?_⟩
  · exact meets_of_invariant filesInv_step (fun s event inv _ => inv.exitsTable event)
      filesInv_loaded apart
  · exact always_of_invariant filesInv_step (fun s inv => inv.openReady) filesInv_loaded apart
  · intro event amid
    rcases missed_of_open_amid amid with ⟨more, missed⟩
    refine ⟨more, ?_⟩
    rw [meets_append, always_append]
    rintro ⟨⟨-, exits⟩, -, ready⟩
    exact missed ⟨exits, ready⟩

end

/-! ## Two runs -/

/-- An `open` whose allocations succeed on two CPUs. -/
def wholeOpen : FileAct :=
  .open ⟨true, true, [true, true]⟩

/-- File 1 is opened between the `CLOSE` of file 0 and its `hook_unregister`. -/
def crossingRun : List (ℕ × FileAct) :=
  [(0, wholeOpen), (0, .step), (0, .step), (0, .step), (0, .release),
    (1, wholeOpen), (1, .step), (1, .step), (1, .step), (0, .step), (0, .step), (0, .step)]

theorem crossingRun_misses :
    ¬Always filesStep OpenReady loaded crossingRun := by
  intro always
  have ready := last_of_always always 1 rfl
  exact absurd ready.hooks (by decide)

/-- File 1 is refused while file 0 is open, and opened once file 0 is released. -/
def plainRun : List (ℕ × FileAct) :=
  [(0, wholeOpen), (0, .step), (0, .step), (1, wholeOpen), (0, .step), (0, .release),
    (0, .step), (0, .step), (0, .step), (1, wholeOpen), (1, .step), (1, .step), (1, .step)]

theorem files_keep_on_plainRun :
    Meets filesStep ExitsTable loaded plainRun ∧ Always filesStep OpenReady loaded plainRun := by
  have apart : Meets filesStep OpensApart loaded plainRun := by
    refine ⟨?_, ?_, ?_, ?_, ?_, ?_, ?_, ?_, ?_, ?_, ?_, ?_, ?_, trivial⟩ <;> intro args act
    · intro _ _
      exact Set.eq_empty_iff_forall_notMem.mpr fun _ => id
    · cases act
    · cases act
    · intro _ closed
      exact absurd closed (by decide)
    all_goals try cases act
    · intro _ _
      apply Set.eq_empty_iff_forall_notMem.mpr
      intro t
      match t with
      | 0 => exact id
      | 1 => exact id
      | _ + 2 => exact id
  exact ⟨(files_keep apart).1, (files_keep apart).2.1⟩

end Linguafranca.Ipshark
