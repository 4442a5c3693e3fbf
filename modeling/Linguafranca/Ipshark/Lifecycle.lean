import Linguafranca.Ipshark.Exclusion

/-!
# Opening and closing with failures

Calls come one at a time. `set_namelist` and `fetch_info` leave the device as they found it
when they fail, but an `ips_open` that cannot allocate leaves `OPEN` behind without tables
and hooks, and every later open is refused.
-/

namespace Linguafranca.Ipshark

open Run

/-- A call on the device that runs to its end. -/
inductive FileCall where
  | open (args : OpenArgs)
  | setNamelist (args : SetArgs)
  | fetchInfo (args : FetchArgs)
  | release

/-- The device, and the number of files whose open succeeded and that are not released. -/
structure Module where
  dev : Device
  files : ℕ

/-- The module after a call. -/
def fileStep (jhash : List UInt8 → UInt32 → UInt32) (m : Module) : FileCall → Module
  | .open args =>
      let done := ipsOpen args m.dev
      ⟨done.2, if done.1 = 0 then m.files + 1 else m.files⟩
  | .setNamelist args => { m with dev := (setNamelist jhash args m.dev).2 }
  | .fetchInfo args => { m with dev := (fetchInfo args m.dev).2 }
  | .release => ⟨(ipsRelease m.dev).2, m.files - 1⟩

/-- Only a successful open is followed by its release. -/
def Released (m : Module) (call : FileCall) : Prop :=
  call = .release → 0 < m.files

/-- The state word tells which resources there are. -/
structure Consistent (dev : Device) : Prop where
  closed : dev.devState = .close → dev.devset.devHashtable = none ∧ dev.ipQueue.ipFifo = none ∧
    dev.devset.whiteBlack = ipsNone ∧ dev.hooks = false
  live : dev.devState ≠ .close → dev.devset.devHashtable.isSome ∧ dev.ipQueue.ipFifo.isSome ∧
    dev.hooks = true

/-- The call leaves a consistent device, and an open that fails leaves it as it was. -/
def Sound (jhash : List UInt8 → UInt32 → UInt32) (m : Module) (call : FileCall) : Prop :=
  Consistent (fileStep jhash m call).dev ∧
    ∀ args, call = .open args → (ipsOpen args m.dev).1 ≠ 0 → (ipsOpen args m.dev).2 = m.dev

/-- No allocation of an open fails on a closed device. -/
def OpenAllocates (m : Module) (call : FileCall) : Prop :=
  ∀ args, call = .open args → m.dev.devState = .close → args.Allocated

section

variable {jhash : List UInt8 → UInt32 → UInt32} {dev : Device} {m : Module}

theorem Consistent.open (consistent : Consistent dev) {args : OpenArgs}
    (allocates : dev.devState = .close → args.Allocated) :
    Consistent (ipsOpen args dev).2 ∧
      ((ipsOpen args dev).1 ≠ 0 → (ipsOpen args dev).2 = dev) := by
  have opens := opens_ipsOpen args dev
  generalize ipsOpen args dev = done at opens
  cases opens with
  | refused taken => exact ⟨consistent, fun _ => rfl⟩
  | noTable free failed => exact absurd (allocates free).1 (by simp [failed])
  | noQueue queue free failed => exact absurd (allocates free) failed
  | opens free allocated =>
      refine ⟨⟨?_, ?_⟩, ?_⟩
      · simp
      · simp [OpenArgs.queue]
      · simp

/-- An open that cannot allocate leaves a device that is neither closed nor live. -/
theorem not_consistent_open {args : OpenArgs} (free : dev.devState = .close)
    (failed : ¬args.Allocated) : ¬Consistent (ipsOpen args dev).2 := by
  have opens := opens_ipsOpen args dev
  generalize ipsOpen args dev = done at opens
  intro consistent
  cases opens with
  | refused taken => exact taken free
  | noTable => simpa using (consistent.live (by simp)).1
  | noQueue => simpa using (consistent.live (by simp)).1
  | opens _ allocated => exact failed allocated

theorem Consistent.setNamelist (consistent : Consistent dev) (args : SetArgs) :
    Consistent (setNamelist jhash args dev).2 := by
  simp only [Ipshark.setNamelist, cas]
  by_cases free : dev.devState = .opened
  · have live := consistent.live (by simp [free])
    simp only [free, if_true, ne_eq, not_true_eq_false, if_false]
    rcases @setNamelistBody_cases jhash args { dev with devState := .nameSet } with
      ⟨failed, same⟩ | ⟨done, -, devset, after, -, table⟩
    · simp only [failed, not_false_eq_true, if_true, same]
      exact ⟨by simp [set], fun _ => live⟩
    · simp only [done, not_true_eq_false, if_false, after]
      exact ⟨by simp, fun _ => ⟨table, live.2⟩⟩
  · simp only [free, if_false, einval]
    exact consistent

theorem fetchInfoBody_resources (args : FetchArgs) (dev : Device) :
    (fetchInfoBody args dev).2.hooks = dev.hooks ∧
      (fetchInfoBody args dev).2.ipQueue.ipFifo.isSome = dev.ipQueue.ipFifo.isSome := by
  have got : (ipQueueGet args.n dev.arr dev.ipQueue).2.2.ipFifo.isSome =
      dev.ipQueue.ipFifo.isSome := by
    cases present : dev.ipQueue.ipFifo <;> simp [ipQueueGet, present]
  simp only [fetchInfoBody]
  split
  · exact ⟨rfl, rfl⟩
  · split
    · exact ⟨rfl, rfl⟩
    · split
      · exact ⟨rfl, rfl⟩
      · split
        · exact ⟨rfl, rfl⟩
        · split <;> exact ⟨rfl, got⟩

theorem Consistent.fetchInfo (consistent : Consistent dev) (args : FetchArgs) :
    Consistent (fetchInfo args dev).2 := by
  simp only [Ipshark.fetchInfo, cas]
  by_cases free : dev.devState = .nameSet
  · have live := consistent.live (by simp [free])
    rcases fetchInfoBody_frame args { dev with devState := .run } with ⟨-, devset⟩
    rcases fetchInfoBody_resources args { dev with devState := .run } with ⟨hooks, fifo⟩
    simp only [free, if_true, ne_eq, not_true_eq_false, if_false]
    refine ⟨by simp [set], fun _ => ?_⟩
    simpa only [set, devset, hooks, fifo] using live
  · simp only [free, if_false, einval]
    exact consistent

theorem consistent_release (dev : Device) : Consistent (ipsRelease dev).2 := by
  refine ⟨fun _ => ⟨rfl, ?_, rfl, rfl⟩, fun taken => absurd rfl taken⟩
  simp only [ipsRelease, ipQueueExit]
  split
  · next absent => exact absent
  · rfl

/-- A call on a consistent device is sound unless it is an open that cannot allocate. -/
theorem sound_iff (consistent : Consistent m.dev) (call : FileCall) :
    Sound jhash m call ↔ OpenAllocates m call := by
  cases call with
  | «open» args =>
      constructor
      · rintro ⟨after, -⟩ _ ⟨⟩ free
        by_contra failed
        exact not_consistent_open free failed after
      · intro allocates
        rcases consistent.open (allocates args rfl) with ⟨after, same⟩
        refine ⟨after, ?_⟩
        rintro _ ⟨⟩
        exact same
  | setNamelist args =>
      exact ⟨fun _ _ => by simp, fun _ => ⟨consistent.setNamelist args, by simp⟩⟩
  | fetchInfo args =>
      exact ⟨fun _ _ => by simp, fun _ => ⟨consistent.fetchInfo args, by simp⟩⟩
  | release => exact ⟨fun _ _ => by simp, fun _ => ⟨consistent_release m.dev, by simp⟩⟩

/-- The calls of a run are sound exactly when no open fails to allocate on a closed device. -/
theorem sound_run_iff {calls : List FileCall}
    (released : Meets (fileStep jhash) Released ⟨closedDevice, 0⟩ calls) :
    Meets (fileStep jhash) (Sound jhash) ⟨closedDevice, 0⟩ calls ↔
      Meets (fileStep jhash) OpenAllocates ⟨closedDevice, 0⟩ calls := by
  apply @meets_iff_of_invariant _ _ _ _ (fun m : Module => Consistent m.dev) Released
  · exact fun m call consistent _ => sound_iff consistent call
  · exact fun m call consistent _ allocates => ((sound_iff consistent call).mpr allocates).1
  · exact ⟨fun _ => ⟨rfl, rfl, rfl, rfl⟩, fun taken => absurd rfl taken⟩
  · exact released

end

/-- The fifo of the second of two CPUs cannot be allocated. -/
def failingOpen : OpenArgs :=
  ⟨true, true, [true, false]⟩

theorem failingOpen_unsound :
    Meets (fileStep constHash) Released ⟨closedDevice, 0⟩ [.open failingOpen] ∧
      ¬Meets (fileStep constHash) (Sound constHash) ⟨closedDevice, 0⟩ [.open failingOpen] := by
  refine ⟨⟨by simp [Released], trivial⟩, ?_⟩
  rintro ⟨⟨-, unchanged⟩, -⟩
  exact absurd (congrArg Device.devState (unchanged failingOpen rfl (by decide))) (by decide)

/-- A file is opened, configured and released, and then opened again. -/
theorem reopened_sound :
    Meets (fileStep constHash) (Sound constHash) ⟨closedDevice, 0⟩
      [.open ⟨true, true, [true]⟩, .setNamelist oneName, .fetchInfo wholeFetch, .release,
        .open ⟨true, true, [true]⟩] := by
  apply (sound_run_iff ?_).mpr
  · refine ⟨?_, ?_, ?_, ?_, ?_, trivial⟩ <;> rintro args call -
    · cases call
      decide
    · cases call
    · cases call
    · cases call
    · cases call
      decide
  · refine ⟨?_, ?_, ?_, ?_, ?_, trivial⟩ <;> intro call
    · cases call
    · cases call
    · cases call
    · decide
    · cases call

end Linguafranca.Ipshark
