import Linguafranca.Ipshark2.Ioctl

/-!
# The hooks and the pool until the module is unloaded

Nothing but the rollback in `ips_config` ever frees a pool, and nothing unregisters the hooks:
`ips_release` and `ips_exit` leave both alone. So a run up to the unloading is balanced exactly
when none of its configurations gets through.
-/

namespace Linguafranca.Ipshark2

open Run

/-- The calls of `ips_config` that acquire or release something. -/
inductive ConfigCall where
  | ipQueueCreate
  | ipQueueExit
  | hookRegister
deriving DecidableEq

section

variable (jhash : List UInt8 → UInt32 → UInt32)

/-- What `ips_config` calls of the queue and of the hooks, in order. -/
def ipsConfigCalls (args : ConfigArgs) (s : Module) : List ConfigCall :=
  if args.headerLeft ≠ 0 then []
  else if !args.allocates then []
  else if args.left ≠ 0 then []
  else if (args.create s.counts).1 < 0 then [.ipQueueCreate, .ipQueueExit]
  else
    match devsetInit jhash args.kcallocName args.kcallocHash args.kzalloc
        (args.p.whiteBlack ≠ 0) args.p.devnum.toInt ifnamsiz args.p.devlist s.data with
    | none => [.ipQueueCreate]
    | some (err, _) =>
        if err ≠ 0 ∨ args.backLeft ≠ 0 then [.ipQueueCreate, .ipQueueExit]
        else [.ipQueueCreate, .hookRegister]

/-- The calls that an event at the device leads to. -/
def deviceCalls (s : Module) : DeviceEvent → List ConfigCall
  | .ipsIoctl request =>
      if request.Passes ∧ request.cmd = ipsCmdConfig then ipsConfigCalls jhash request.config s
      else []
  | _ => []

/-- Hooks are registered where none are, and a pool is created where none is. -/
structure InTurn (s : Module) (event : DeviceEvent) : Prop where
  hooks : .hookRegister ∈ deviceCalls jhash s event → s.hooks = false
  pool : .ipQueueCreate ∈ deviceCalls jhash s event → s.pool = none

/-- The module is loaded, serves the events and is unloaded. -/
def unloaded (events : List DeviceEvent) : Loaded :=
  let loaded := (ipsInit 0 0 0).2
  ipsExit { loaded with statics := run (deviceStep jhash) loaded.statics events }

/-- What is registered or created is given up in turn, and nothing is left after `ips_exit`. -/
structure Balanced (events : List DeviceEvent) : Prop where
  inTurn : Meets (deviceStep jhash) (InTurn jhash) (ipsInit 0 0 0).2.statics events
  hooks : (unloaded jhash events).statics.hooks = false
  pool : (unloaded jhash events).statics.pool = none

/-- The call gets past the creation of the pool and of the device set, and is not sent back by
the copy to the user; a sort that stops at a swap leaves the pool as well. -/
structure ConfigArgs.Completes (args : ConfigArgs) : Prop where
  copied : args.Copied
  creatable : args.Creatable
  set : args.devsetCreated = true
  back : args.Ordered jhash → args.backLeft = 0

/-- The event is a configuration that gets through. -/
def Acquires (event : DeviceEvent) : Prop :=
  ∃ request, event = .ipsIoctl request ∧ request.Passes ∧ request.cmd = ipsCmdConfig ∧
    request.config.Completes jhash

end

section

variable {jhash : List UInt8 → UInt32 → UInt32} {args : ConfigArgs} {s : Module}
  {event : DeviceEvent}

theorem create_mem_iff : .ipQueueCreate ∈ ipsConfigCalls jhash args s ↔ args.Copied := by
  unfold ipsConfigCalls
  split
  · next header => simpa using fun copied : args.Copied => header copied.header
  · next header =>
      split
      · next buffer =>
          simpa using fun copied : args.Copied => by simp [copied.buffer] at buffer
      · next buffer =>
          split
          · next names => simpa using fun copied : args.Copied => names copied.names
          · next names =>
              have copied : args.Copied :=
                ⟨not_not.mp header, by simpa using buffer, not_not.mp names⟩
              split
              · simp [copied]
              · split
                · simp [copied]
                · split <;> simp [copied]

theorem hooks_ipsConfig : (ipsConfig jhash args s).state.hooks = true ↔
    s.hooks = true ∨ .hookRegister ∈ ipsConfigCalls jhash args s := by
  unfold ipsConfig ipsConfigCalls
  split
  · simp
  · split
    · simp
    · split
      · simp
      · dsimp only
        split
        · simp [Module.ipQueueExit]
        · cases devsetInit jhash args.kcallocName args.kcallocHash args.kzalloc
            (args.p.whiteBlack ≠ 0) args.p.devnum.toInt ifnamsiz args.p.devlist s.data with
          | none => simp
          | some ended =>
              rcases ended with ⟨err, data⟩
              by_cases error : err = 0
              · by_cases back : args.backLeft = 0
                · simp [error, back]
                · simp [error, back, Module.ipQueueExit]
              · simp [error, Module.ipQueueExit]

theorem isSome_handOver (pool : s.pool.isSome) : (handOver s).pool.isSome := by
  rcases Option.isSome_iff_exists.mp pool with ⟨q, present⟩
  simp [handOver, clearPuttimes, Module.setCounts, present]

/-! ## Events -/

theorem Calls.passed {result : Option Int × Module} {request : IpsRequest}
    (calls : Calls jhash request s result) (passes : request.Passes)
    (config : request.cmd = ipsCmdConfig) :
    result.2 = (ipsConfig jhash request.config s).state := by
  cases calls with
  | turnedDown err refused negative => exact absurd passes refused
  | config _ _ => rfl
  | fetch ret _ cmd returned => exact absurd (config.symm.trans cmd) (by decide)
  | free ret _ cmd returned => exact absurd (config.symm.trans cmd) (by decide)
  | unknown other _ => exact absurd config other

theorem pool_of_acquires (acquires : Acquires jhash event) :
    (deviceStep jhash s event).pool.isSome := by
  rcases acquires with ⟨request, rfl, passes, config, completes⟩
  simp only [deviceStep, Calls.passed calls_ipsIoctl passes config]
  have outcome := outcome_ipsConfig jhash request.config s
  generalize (ipsConfig jhash request.config s).ret = ret,
    (ipsConfig jhash request.config s).state = s' at outcome ⊢
  cases outcome with
  | uncopied left uncopied => exact absurd completes.copied uncopied
  | uncreated err copied refused negative => exact absurd completes.creatable refused
  | unset q pooled unset => simp [completes.set] at unset
  | unordered q pooled set unordered => rfl
  | unwritten q pooled set ordered back => exact absurd (completes.back ordered) back
  | installed q data pooled set ordered back => rfl

theorem pool_stays_of_uncopied (uncopied : ¬args.Copied) (pool : s.pool.isSome) :
    (ipsConfig jhash args s).state.pool.isSome := by
  have outcome := outcome_ipsConfig jhash args s
  generalize (ipsConfig jhash args s).ret = ret, (ipsConfig jhash args s).state = s' at outcome ⊢
  cases outcome with
  | uncopied left _ => exact pool
  | uncreated err copied refused negative => exact absurd copied uncopied
  | unset q pooled unset => exact absurd pooled.copied uncopied
  | unordered q pooled set unordered => rfl
  | unwritten q pooled set ordered back => exact absurd pooled.copied uncopied
  | installed q data pooled set ordered back => rfl

theorem pool_stays (inTurn : InTurn jhash s event) (pool : s.pool.isSome) :
    (deviceStep jhash s event).pool.isSome := by
  cases event with
  | ipsOpen => exact pool
  | ipsRelease => exact pool
  | packet p =>
      simp only [deviceStep, arrive]
      split
      · split
        · exact pool
        · simpa using pool
      · exact pool
  | ipsIoctl request =>
      have calls : Calls jhash request s (ipsIoctl jhash request s) := calls_ipsIoctl
      simp only [deviceStep]
      generalize ipsIoctl jhash request s = result at calls ⊢
      cases calls with
      | turnedDown err refused negative => exact pool
      | config passes cmd =>
          have uncopied : ¬request.config.Copied := by
            intro copied
            have none := inTurn.pool (by
              simp only [deviceCalls, passes, cmd, and_self, if_true]
              exact create_mem_iff.mpr copied)
            simp [none] at pool
          exact pool_stays_of_uncopied uncopied pool
      | fetch ret passes cmd returned =>
          have fetches := fetches_ipsFetch request.remaining request.interrupted s
          generalize ipsFetch request.remaining request.interrupted s = fetched at fetches ⊢
          cases fetches with
          | woken many => exact isSome_handOver pool
          | signalled few signal => exact pool
          | late few quiet some => exact isSome_handOver pool
          | idle quiet none => exact pool
      | free ret passes cmd returned =>
          simp only [ipsFreemem]
          split
          · exact pool
          · simpa using pool
      | unknown config free => exact pool

/-! ## Runs -/

/-- Neither hooks nor a pool. -/
structure Bare (s : Module) : Prop where
  hooks : s.hooks = false
  pool : s.pool = none

theorem Bare.inTurn (bare : Bare s) (event : DeviceEvent) : InTurn jhash s event :=
  ⟨fun _ => bare.hooks, fun _ => bare.pool⟩

theorem Bare.handOver (bare : Bare s) : Bare (handOver s) := by
  simp only [Ipshark2.handOver, clearPuttimes, Module.setCounts, bare.pool]
  exact ⟨bare.hooks, rfl⟩

theorem Bare.config (bare : Bare s) (incomplete : ¬args.Completes jhash) :
    Bare (ipsConfig jhash args s).state := by
  have outcome := outcome_ipsConfig jhash args s
  generalize (ipsConfig jhash args s).ret = ret, (ipsConfig jhash args s).state = s' at outcome ⊢
  cases outcome with
  | uncopied left uncopied => exact bare
  | uncreated err copied refused negative => exact ⟨bare.hooks, rfl⟩
  | unset q pooled unset => exact ⟨bare.hooks, rfl⟩
  | unordered q pooled set unordered =>
      apply absurd _ incomplete
      exact ⟨pooled.copied, pooled.creatable, set, fun ordered => absurd ordered unordered⟩
  | unwritten q pooled set ordered back => exact ⟨bare.hooks, rfl⟩
  | installed q data pooled set ordered back =>
      apply absurd _ incomplete
      exact ⟨pooled.copied, pooled.creatable, set, fun _ => back⟩

theorem Bare.step (bare : Bare s) (acquires : ¬Acquires jhash event) :
    Bare (deviceStep jhash s event) := by
  cases event with
  | ipsOpen => exact bare
  | ipsRelease => exact bare
  | packet p =>
      -- no hook is called
      simpa [deviceStep, arrive, bare.hooks] using bare
  | ipsIoctl request =>
      have calls : Calls jhash request s (ipsIoctl jhash request s) := calls_ipsIoctl
      simp only [deviceStep]
      generalize ipsIoctl jhash request s = result at calls ⊢
      cases calls with
      | turnedDown err refused negative => exact bare
      | config passes cmd =>
          apply bare.config
          intro completes
          exact acquires ⟨request, rfl, passes, cmd, completes⟩
      | fetch ret passes cmd returned =>
          have fetches := fetches_ipsFetch request.remaining request.interrupted s
          generalize ipsFetch request.remaining request.interrupted s = fetched at fetches ⊢
          cases fetches with
          | woken many => exact bare.handOver
          | signalled few signal => exact bare
          | late few quiet some => exact bare.handOver
          | idle quiet none => exact bare
      | free ret passes cmd returned =>
          simp only [ipsFreemem]
          split
          · exact bare
          · exact ⟨bare.hooks, by simp [bare.pool]⟩
      | unknown config free => exact bare

/-- What a configuration that gets through leaves behind is never released, so that a run is
balanced exactly when it has none. -/
theorem balanced_iff (jhash : List UInt8 → UInt32 → UInt32) (events : List DeviceEvent) :
    Balanced jhash events ↔ ∀ event ∈ events, ¬Acquires jhash event := by
  constructor
  · intro balanced event member acquires
    rcases List.append_of_mem member with ⟨before, after, rfl⟩
    rcases (meets_append _ _ _).mp balanced.inTurn with ⟨-, -, later⟩
    have stays := @invariant _ _ _ _ (fun s : Module => s.pool.isSome = true)
      (fun _ _ pool inTurn => pool_stays inTurn pool) _ _ (pool_of_acquires acquires) later
    have freed := balanced.pool
    simp only [unloaded, ipsExit, ipsClean, run_append, run_cons] at freed
    simp [freed] at stays
  · intro none
    have bare : Bare (ipsInit 0 0 0).2.statics := ⟨rfl, rfl⟩
    have spared : Meets (deviceStep jhash) (fun _ event => ¬Acquires jhash event)
        (ipsInit 0 0 0).2.statics events :=
      meets_of_mem (fun event member _ => none event member) _
    have last : Bare (run (deviceStep jhash) (ipsInit 0 0 0).2.statics events) :=
      invariant (fun _ _ bare spares => bare.step spares) bare spared
    refine ⟨?_, last.hooks, last.pool⟩
    apply meets_of_invariant (fun _ _ bare spares => Bare.step bare spares) _ bare spared
    intro s event bare _
    exact bare.inTurn event

end

/-- A client that configures the module once and goes leaves the hooks behind. -/
theorem once_unbalanced : ¬Balanced (fun _ _ => 0)
    [.ipsOpen, .ipsIoctl (.ofConfig noNames), .ipsRelease] := by
  intro balanced
  exact absurd balanced.hooks (by decide)

end Linguafranca.Ipshark2
