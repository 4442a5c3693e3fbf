import Linguafranca.Ipshark2.Core
import Linguafranca.Ipshark2.Pool

/-!
# What `ips_config` installs

`ip_queue_create` succeeds exactly when its allocations do and the sizes of the CPUs add up to
an index that fits (`Fits`). The buffer `p` is always too short for what `devset_init` reads
back from it, and a buffer that is refused makes the call return zero. So the call is faithful
to a request exactly when it turns the request down on the way (`Rejected`).
-/

namespace Linguafranca.Ipshark2

/-! ## When a pool is created -/

/-- The number of indices of the CPUs from one on. -/
def totalSize (s : List IpsCpuQueueSize) (defaultSize : UInt16) : ℕ → List CpuAlloc → ℕ
  | _, [] => 0
  | cpu, _ :: rest => (getsize cpu s defaultSize).toNat + totalSize s defaultSize (cpu + 1) rest

/-- Every CPU's memory is there and the indices of all CPUs fit behind `pre`. -/
def Fits (s : List IpsCpuQueueSize) (defaultSize : UInt16) (cpu pre : ℕ) (cpus : List CpuAlloc) :
    Prop :=
  (∀ alloc ∈ cpus, alloc.Allocated) ∧ pre + totalSize s defaultSize cpu cpus < 65536

instance (s : List IpsCpuQueueSize) (defaultSize : UInt16) (cpu pre : ℕ) (cpus : List CpuAlloc) :
    Decidable (Fits s defaultSize cpu pre cpus) :=
  inferInstanceAs (Decidable (_ ∧ _))

section Creating

variable {s : List IpsCpuQueueSize} {defaultSize ms : UInt16} {cpu pre : ℕ} {alloc : CpuAlloc}
  {cpus : List CpuAlloc} {percpu vmalloc : Bool} {behind : ℕ → IpKeyInfoWrap}
  {counters : Counters}

theorem fits_cons : Fits s defaultSize cpu pre (alloc :: cpus) ↔ alloc.Allocated ∧
    Fits s defaultSize (cpu + 1) (pre + (getsize cpu s defaultSize).toNat) cpus := by
  simp only [Fits, List.forall_mem_cons, totalSize, and_assoc, Nat.add_assoc]

/-- The loop ends without an error exactly when everything fits. -/
theorem createLoop_error (small : pre < 65536) :
    (Fits s defaultSize cpu pre cpus → (createLoop s defaultSize cpu pre 0 cpus).1 = 0) ∧
      (¬Fits s defaultSize cpu pre cpus → (createLoop s defaultSize cpu pre 0 cpus).1 < 0) := by
  induction cpus generalizing cpu pre with
  | nil => simp [Fits, totalSize, createLoop, small]
  | cons alloc cpus ih =>
      rw [fits_cons]
      have turn := createLoop_turn s defaultSize cpu pre 0 alloc cpus small
      generalize createLoop s defaultSize cpu pre 0 (alloc :: cpus) = result at turn ⊢
      cases turn with
      | refused next err refused negative => simp [refused, negative]
      | wraps next err large negative =>
          have unfit : ¬Fits s defaultSize (cpu + 1)
              (pre + (getsize cpu s defaultSize).toNat) cpus := by
            rintro ⟨-, below⟩
            omega
          simp [unfit, negative]
      | sets c later allocated below fresh starts ends continued =>
          subst continued
          simp only [allocated, true_and]
          exact ih below

/-- What `ip_queue_create` needs. -/
structure Creatable (s : List IpsCpuQueueSize) (defaultSize : UInt16) (percpu : Bool)
    (cpus : List CpuAlloc) (vmalloc : Bool) : Prop where
  percpu : percpu = true
  fits : Fits s defaultSize 0 0 cpus
  vmalloc : vmalloc = true

theorem ipQueueCreate_cases :
    (Creatable s defaultSize percpu cpus vmalloc ∧
        0 ≤ (ipQueueCreate s defaultSize ms percpu cpus vmalloc behind counters).1 ∧
        (ipQueueCreate s defaultSize ms percpu cpus vmalloc behind counters).2.isSome) ∨
      (¬Creatable s defaultSize percpu cpus vmalloc ∧
        (ipQueueCreate s defaultSize ms percpu cpus vmalloc behind counters).1 < 0 ∧
        (ipQueueCreate s defaultSize ms percpu cpus vmalloc behind counters).2 = none) := by
  rcases @createLoop_error s defaultSize 0 0 cpus (by omega) with ⟨fine, failed⟩
  unfold ipQueueCreate
  cases percpu with
  | false =>
      right
      exact ⟨fun creatable => Bool.false_ne_true creatable.percpu, by simp [enomem], rfl⟩
  | true =>
      by_cases fits : Fits s defaultSize 0 0 cpus
      · simp only [fine fits, ne_eq, not_true_eq_false, if_false, Bool.not_true,
          Bool.false_eq_true]
        cases vmalloc with
        | false =>
            right
            exact ⟨fun creatable => Bool.false_ne_true creatable.vmalloc, by simp [enomem], rfl⟩
        | true =>
            left
            exact ⟨⟨rfl, fits, rfl⟩, by simp, rfl⟩
      · right
        have error := failed fits
        simp only [error.ne, ne_eq, not_false_eq_true, if_true, Bool.not_true, Bool.false_eq_true,
          if_false]
        exact ⟨fun creatable => fits creatable.fits, error, trivial⟩

end Creating

/-! ## What is read back from the buffer -/

section Reads

variable {args : ConfigArgs}

theorem requestSize_le {devnum : Int32} (counted : 0 ≤ devnum.toInt) :
    requestSize devnum ≤ 1 + 16 * devnum.toInt := by
  have below := Int.bmod_lt (x := 1 + ifnamsiz * devnum.toInt) (m := 2 ^ 32) (by norm_num)
  simp only [requestSize, ifnamsiz, Int.bmod_def] at below ⊢
  omega

theorem devnum_p (header : 36 ≤ args.t) : args.p.devnum = args.request.devnum := by
  have fits : 32 + 4 ≤ args.t.toNat := by omega
  simp only [ConfigArgs.p, ConfigArgs.request, ipsConfigAt, Memory.number_fill fits]

theorem devsetCreate_iff {kcallocName kcallocHash black : Bool} {elenum size : Int} {data : Data} :
    (devsetCreate kcallocName kcallocHash black elenum size data).1 = true ↔
      (0 ≤ elenum ∧ 0 < size) ∧ kcallocName = true ∧ kcallocHash = true := by
  simp only [devsetCreate]
  split
  · simp only [Bool.false_eq_true, false_iff]
    omega
  · have counted : 0 ≤ elenum ∧ 0 < size := by omega
    cases kcallocName <;> cases kcallocHash <;> simp [counted]

theorem devsetCreated_iff : args.devsetCreated = true ↔
    0 ≤ args.p.devnum.toInt ∧ args.kcallocName = true ∧ args.kcallocHash = true := by
  simp [ConfigArgs.devsetCreated, devsetCreate_iff, ifnamsiz]

/-- The names lie behind the end of the buffer, so that only a buffer from which no name is
read is long enough. -/
theorem devsetReads_within_iff : (∀ offset ∈ args.devsetReads, (offset : Int) < args.t) ↔
    36 ≤ args.t ∧ ¬(0 ≤ args.request.devnum.toInt ∧ args.kcallocName = true ∧
      args.kcallocHash = true) := by
  simp only [ConfigArgs.devsetReads, List.forall_mem_append, List.mem_range'_1]
  constructor
  · rintro ⟨⟨-, counts⟩, names⟩
    have header := counts 35 (by omega)
    have header : 36 ≤ args.t := by omega
    refine ⟨header, ?_⟩
    rintro ⟨counted, allocated⟩
    have created : args.devsetCreated = true := by
      rw [devsetCreated_iff, devnum_p header]
      exact ⟨counted, allocated⟩
    have short := requestSize_le counted
    rw [if_pos created, devnum_p header] at names
    have last := names (args.request.devnum.toInt.toNat * 16 + 35)
    simp only [List.mem_range'_1, ifnamsiz] at last
    simp only [ConfigArgs.t] at header last
    omega
  · rintro ⟨header, uncreated⟩
    have refused : ¬args.devsetCreated = true := by
      rwa [devsetCreated_iff, devnum_p header]
    rw [if_neg refused]
    refine ⟨⟨?_, ?_⟩, by simp⟩
    · rintro offset ⟨-, upper⟩
      omega
    · rintro offset ⟨-, upper⟩
      omega

end Reads

/-! ## What a call does -/

section Calls

/-- The pool of the request can be created. -/
def ConfigArgs.Creatable (args : ConfigArgs) : Prop :=
  Ipshark2.Creatable args.request.queueSize args.request.defaultQueueSize args.percpu args.cpus
    args.vmalloc

theorem ConfigArgs.create_cases (args : ConfigArgs) (counters : Counters) :
    (args.Creatable ∧ 0 ≤ (args.create counters).1 ∧ ∃ q, (args.create counters).2 = some q) ∨
      (¬args.Creatable ∧ (args.create counters).1 < 0) := by
  have cases := @ipQueueCreate_cases args.request.queueSize args.request.defaultQueueSize
    args.request.waitMs args.cpus args.percpu args.vmalloc args.elem counters
  rcases cases with ⟨creatable, positive, pool⟩ | ⟨refused, negative, -⟩
  · exact Or.inl ⟨creatable, positive, Option.isSome_iff_exists.mp pool⟩
  · exact Or.inr ⟨refused, negative⟩

theorem ConfigArgs.devsetInit_cases (jhash : List UInt8 → UInt32 → UInt32) (args : ConfigArgs)
    (data : Data) {result : Option (Int × Data)}
    (init : devsetInit jhash args.kcallocName args.kcallocHash args.kzalloc
      (args.p.whiteBlack ≠ 0) args.p.devnum.toInt ifnamsiz args.p.devlist data = result) :
    result = some (-1, Data.initial) ∨
      args.devsetCreated = true ∧ (result = none ∨ ∃ after, result = some (0, after)) := by
  subst init
  simp only [devsetInit]
  split
  · next created =>
      right
      refine ⟨?_, ?_⟩
      · rw [devsetCreate_iff] at created
        rw [devsetCreated_iff]
        exact ⟨created.1.1, created.2⟩
      · cases devsetOrder jhash args.kzalloc (devsetCopy args.p.devlist
          (devsetCreate args.kcallocName args.kcallocHash (args.p.whiteBlack ≠ 0)
            args.p.devnum.toInt ifnamsiz data).2) with
        | none => exact Or.inl rfl
        | some after => exact Or.inr ⟨(after), rfl⟩
  · exact Or.inl rfl

/-- The call gets as far as `ip_queue_create`. -/
structure ConfigArgs.Copied (args : ConfigArgs) : Prop where
  header : args.headerLeft = 0
  buffer : args.allocates = true
  names : args.left = 0

/-- The call gets as far as `devset_init`, with the new pool. -/
structure ConfigArgs.Pooled (args : ConfigArgs) (s : Module) (q : IpQueue) : Prop where
  copied : args.Copied
  creatable : args.Creatable
  created : (args.create s.counts).2 = some q

/-- What a configuration does, by where it ends. -/
inductive Configures (jhash : List UInt8 → UInt32 → UInt32) (args : ConfigArgs) (s : Module) :
    ConfigResult → Prop where
  | noHeader : args.headerLeft ≠ 0 → Configures jhash args s ⟨[], none, some args.headerLeft, s⟩
  | noBuffer : args.headerLeft = 0 → args.allocates = false →
      Configures jhash args s ⟨[], none, some 0, s⟩
  | noNames : args.allocates = true → args.left ≠ 0 →
      Configures jhash args s ⟨[], none, some args.left, s⟩
  | noPool (err : Int) : args.Copied → ¬args.Creatable → err < 0 →
      Configures jhash args s ⟨[], none, some err, s.ipQueueExit⟩
  | stopped (q : IpQueue) : args.Pooled s q → args.devsetCreated = true →
      Configures jhash args s
        ⟨args.devsetReads, none, none, { s with pool := some q, data := args.stopped }⟩
  | dropped (q : IpQueue) (written : Option IpsConfig) (err : Int) : args.Pooled s q → err ≠ 0 →
      Configures jhash args s ⟨args.devsetReads, written, some err,
        { s with pool := some q, data := Data.initial }.ipQueueExit⟩
  | installed (q : IpQueue) (written : IpsConfig) (data : Data) : args.Pooled s q →
      args.devsetCreated = true →
      Configures jhash args s ⟨args.devsetReads, some written, some 0,
        { s with pool := some q, data := data, hooks := true }⟩

theorem configures_ipsConfig (jhash : List UInt8 → UInt32 → UInt32) (args : ConfigArgs)
    (s : Module) : Configures jhash args s (ipsConfig jhash args s) := by
  unfold ipsConfig
  split
  · next header => exact .noHeader header
  · next header =>
      split
      · next buffer => exact .noBuffer (not_not.mp header) (by simpa using buffer)
      · next buffer =>
          have buffer : args.allocates = true := by simpa using buffer
          split
          · next names => exact .noNames buffer names
          · next names =>
              have copied : args.Copied := ⟨not_not.mp header, buffer, not_not.mp names⟩
              rcases args.create_cases s.counts with
                ⟨creatable, positive, q, created⟩ | ⟨refused, negative⟩
              · have pooled : args.Pooled s q := ⟨copied, creatable, created⟩
                simp only [if_neg (not_lt.mpr positive), created]
                generalize init : devsetInit jhash args.kcallocName args.kcallocHash
                  args.kzalloc (args.p.whiteBlack ≠ 0) args.p.devnum.toInt ifnamsiz
                  args.p.devlist s.data = result
                rcases args.devsetInit_cases jhash s.data init with
                  rfl | ⟨set, rfl | ⟨data, rfl⟩⟩
                · exact .dropped q none (-1) pooled (by omega)
                · exact .stopped q pooled set
                · simp only [ne_eq, not_true_eq_false, if_false]
                  split
                  · next back => exact .dropped q _ _ pooled (by omega)
                  · exact .installed q _ data pooled set
              · simp only [if_pos negative]
                exact .noPool _ copied refused negative

/-- The device set that a call with the memory for one starts to sort. -/
def ConfigArgs.unordered (args : ConfigArgs) : Data :=
  devsetCopy args.p.devlist (devsetCreate args.kcallocName args.kcallocHash
    (args.p.whiteBlack ≠ 0) args.p.devnum.toInt ifnamsiz Data.initial).2

/-- Every swap of the sort has its buffer. -/
def ConfigArgs.Ordered (jhash : List UInt8 → UInt32 → UInt32) (args : ConfigArgs) : Prop :=
  (devsetOrder jhash args.kzalloc args.unordered).isSome

/-- Without memory for the names the old device set goes as well; with it, nothing of the old
one matters. -/
theorem ConfigArgs.devsetInit_eq (jhash : List UInt8 → UInt32 → UInt32) (args : ConfigArgs)
    (data : Data) :
    devsetInit jhash args.kcallocName args.kcallocHash args.kzalloc (args.p.whiteBlack ≠ 0)
        args.p.devnum.toInt ifnamsiz args.p.devlist data =
      if args.devsetCreated then
        (devsetOrder jhash args.kzalloc args.unordered).map fun ordered => (0, ordered)
      else some (-1, Data.initial) := by
  simp only [devsetInit, ConfigArgs.devsetCreated, ConfigArgs.unordered, devsetCreate]
  split
  · next refused => simp [devsetExit]
  · next counted =>
      cases args.kcallocName with
      | false => simp [devsetExit]
      | true =>
          cases args.kcallocHash with
          | false => simp [devsetExit]
          | true => simp

/-- How far a call gets, as its arguments decide, and what becomes of the module. -/
inductive Outcome (jhash : List UInt8 → UInt32 → UInt32) (args : ConfigArgs) (s : Module) :
    Option Int × Module → Prop where
  | uncopied (left : ℕ) : ¬args.Copied → Outcome jhash args s (some (left : Int), s)
  | uncreated (err : Int) : args.Copied → ¬args.Creatable → err < 0 →
      Outcome jhash args s (some err, s.ipQueueExit)
  | unset (q : IpQueue) : args.Pooled s q → args.devsetCreated = false →
      Outcome jhash args s (some (-1), { s with pool := some q, data := Data.initial }.ipQueueExit)
  | unordered (q : IpQueue) : args.Pooled s q → args.devsetCreated = true → ¬args.Ordered jhash →
      Outcome jhash args s (none, { s with pool := some q, data := args.stopped })
  | unwritten (q : IpQueue) : args.Pooled s q → args.devsetCreated = true → args.Ordered jhash →
      args.backLeft ≠ 0 →
      Outcome jhash args s (some (args.backLeft : Int),
        { s with pool := some q, data := Data.initial }.ipQueueExit)
  | installed (q : IpQueue) (data : Data) : args.Pooled s q → args.devsetCreated = true →
      args.Ordered jhash → args.backLeft = 0 →
      Outcome jhash args s (some 0, { s with pool := some q, data := data, hooks := true })

theorem outcome_ipsConfig (jhash : List UInt8 → UInt32 → UInt32) (args : ConfigArgs)
    (s : Module) :
    Outcome jhash args s ((ipsConfig jhash args s).ret, (ipsConfig jhash args s).state) := by
  unfold ipsConfig
  split
  · next header => exact .uncopied _ fun copied => header copied.header
  · next header =>
      split
      · next buffer => exact .uncopied 0 fun copied => by simp [copied.buffer] at buffer
      · next buffer =>
          split
          · next names => exact .uncopied _ fun copied => names copied.names
          · next names =>
              have copied : args.Copied :=
                ⟨not_not.mp header, by simpa using buffer, not_not.mp names⟩
              rcases args.create_cases s.counts with
                ⟨creatable, positive, q, created⟩ | ⟨refused, negative⟩
              · have pooled : args.Pooled s q := ⟨copied, creatable, created⟩
                simp only [if_neg (not_lt.mpr positive), created, args.devsetInit_eq]
                cases set : args.devsetCreated with
                | false => exact .unset q pooled set
                | true =>
                    cases order : devsetOrder jhash args.kzalloc args.unordered with
                    | none =>
                        apply Outcome.unordered q pooled set
                        simp [ConfigArgs.Ordered, order]
                    | some data =>
                        have ordered : args.Ordered jhash := by
                          simp [ConfigArgs.Ordered, order]
                        simp only [if_true, Option.map_some, ne_eq, not_true_eq_false, if_false]
                        split
                        · next back => exact .unwritten q pooled set ordered back
                        · next back => exact .installed q data pooled set ordered (not_not.mp back)
              · simp only [if_pos negative]
                exact .uncreated _ copied refused negative

end Calls

/-! ## The calls that are faithful -/

/-- The module does what the request asks for. -/
structure Serves (request : IpsConfig) (s : Module) : Prop where
  black : request.whiteBlack = 1 → s.data.black = true
  white : request.whiteBlack = 0 → s.data.black = false
  elenum : s.data.elenum = request.devnum.toInt
  names : ∃ name, s.data.name = some name ∧
    ((List.range request.devnum.toInt.toNat).map fun i => cString (name i)).Perm
      ((List.range request.devnum.toInt.toNat).map fun i => cString (request.devlist i))
  pool : s.pool.isSome
  hooks : s.hooks = true

/-- A call that returns zero serves the request, and no call reads behind the buffer. -/
def Faithful (jhash : List UInt8 → UInt32 → UInt32) (args : ConfigArgs) (s : Module) : Prop :=
  ((ipsConfig jhash args s).ret = some 0 → Serves args.request (ipsConfig jhash args s).state) ∧
    ∀ offset ∈ (ipsConfig jhash args s).reads, (offset : Int) < args.t

/-- The first copy fails; or the buffer is there and the second copy fails, no pool can be
created, or a buffer with the whole fixed part meets a device set that cannot be created. -/
def ConfigArgs.Rejected (args : ConfigArgs) : Prop :=
  args.headerLeft ≠ 0 ∨
    (args.allocates = true ∧
      (args.left ≠ 0 ∨ ¬args.Creatable ∨
        (36 ≤ args.t ∧ ¬(0 ≤ args.request.devnum.toInt ∧ args.kcallocName = true ∧
          args.kcallocHash = true))))

section

variable {jhash : List UInt8 → UInt32 → UInt32} {args : ConfigArgs} {s : Module}

/-- Once the pool is there, it depends on what is read back. -/
theorem ConfigArgs.Pooled.rejected_iff {q : IpQueue} (pooled : args.Pooled s q) :
    args.Rejected ↔ ∀ offset ∈ args.devsetReads, (offset : Int) < args.t := by
  rw [devsetReads_within_iff]
  simp [ConfigArgs.Rejected, pooled.copied.header, pooled.copied.buffer, pooled.copied.names,
    pooled.creatable]

theorem not_within (set : args.devsetCreated = true) :
    ¬∀ offset ∈ args.devsetReads, (offset : Int) < args.t := by
  rw [devsetReads_within_iff]
  rintro ⟨header, uncreated⟩
  rw [← devnum_p header, ← devsetCreated_iff] at uncreated
  exact uncreated set

/-- On a module without a pool, a call is faithful exactly when it turns the request down. -/
theorem config_faithful_iff (unconfigured : s.pool = none) :
    Faithful jhash args s ↔ args.Rejected := by
  have configures := configures_ipsConfig jhash args s
  unfold Faithful
  generalize ipsConfig jhash args s = result at configures ⊢
  cases configures with
  | noHeader header => simp [header, ConfigArgs.Rejected]
  | noBuffer header buffer =>
      -- zero is returned although nothing was done
      have unserved : ¬Serves args.request s := by
        intro serves
        simpa [unconfigured] using serves.pool
      simp [header, buffer, unserved, ConfigArgs.Rejected]
  | noNames buffer names => simp [buffer, names, ConfigArgs.Rejected]
  | noPool err copied refused negative =>
      simp [copied.buffer, refused, negative.ne, ConfigArgs.Rejected]
  | stopped q pooled set => simp [pooled.rejected_iff]
  | dropped q written err pooled error => simp [pooled.rejected_iff, error]
  | installed q written data pooled set => simp [pooled.rejected_iff, not_within set]

end

/-- A request for one name and two indices for the one CPU, for which everything succeeds. -/
def oneName : ConfigArgs where
  user := fun offset =>
    if offset = 10 ∨ offset = 24 then 2
    else if offset = 28 ∨ offset = 32 then 1
    else if offset = 36 then 101
    else 0
  headerLeft := 0
  kmalloc := true
  behind := fun _ => 0
  left := 0
  percpu := true
  cpus := [⟨true, some 0, some 0⟩]
  vmalloc := true
  elem := fun _ => ⟨infoEc, 0, .free⟩
  kcallocName := true
  kcallocHash := true
  kzalloc := true
  stopped := Data.initial
  backLeft := 0

/-- The buffer has seventeen bytes, and `devnum` lies behind them. -/
theorem oneName_unfaithful : ¬Faithful (fun _ _ => 0) oneName Module.initial := by
  rintro ⟨-, within⟩
  have read : 35 ∈ (ipsConfig (fun _ _ => 0) oneName Module.initial).reads := by decide
  have size : oneName.t = 17 := by decide
  have short := within 35 read
  omega

theorem uncopied_faithful : Faithful (fun _ _ => 0) { oneName with left := 1 } Module.initial := by
  have buffer : ({ oneName with left := 1 } : ConfigArgs).allocates = true := by decide
  exact (config_faithful_iff rfl).mpr (Or.inr ⟨buffer, Or.inl (by decide)⟩)

end Linguafranca.Ipshark2
