import Linguafranca.Ipshark2.Configuration
import Mathlib.Algebra.BigOperators.Group.Finset.Basic

/-!
# Setting the pool up

`ip_queue_create` over the static variables: the indices are counted in an `unsigned short`,
and an error leaves an array in which only some CPUs are set up to `ip_queue_exit`. Each loop
over indices has a number of turns within which it has to end. The result is the pool of
`ipQueueCreate`, whose ranges divide the indices, or nothing is left.
-/

namespace Linguafranca.Ipshark2

/-- The variables that a call sets; `qptr` has the `dataptr` of each CPU. -/
structure Statics where
  qptr : Option (List (Option QueueData))
  m : Option IpsDmaArea
  waitMs : ℕ

/-- The queues and the area are freed. -/
def Statics.ipQueueExit (statics : Statics) : Statics :=
  { statics with qptr := none, m := none }

/-- Whether every index up to `stop` fits, and the idle fifo. -/
def fillLoop : ℕ → UInt16 → UInt16 → Kfifo ℕ → Option (Bool × Kfifo ℕ)
  | 0, _, _, _ => none
  | turns + 1, i, stop, idle =>
      if i < stop then
        if (idle.put i.toNat).1 then fillLoop turns (i + 1) stop (idle.put i.toNat).2
        else some (false, idle)
      else some (true, idle)

/-- The loop that marks the elements as free. -/
def freeLoop : ℕ → UInt16 → UInt16 → (ℕ → IpKeyInfoWrap) → Option (ℕ → IpKeyInfoWrap)
  | 0, _, _, _ => none
  | turns + 1, i, stop, elem =>
      if i < stop then
        freeLoop turns (i + 1) stop
          (Function.update elem i.toNat { elem i.toNat with times := 0, state := .free })
      else some elem

/-- The loop over the CPUs: the error, the number of indices and what each CPU is left with. -/
def buildLoop (turns : ℕ) (s : List IpsCpuQueueSize) (defaultSize : UInt16) :
    ℕ → UInt16 → Int → List CpuAlloc → Option (Int × UInt16 × List (Option QueueData))
  | _, pre, ret, [] => some (ret, pre, [])
  | cpu, pre, ret, alloc :: rest =>
      let unset := rest.map fun _ => none
      if !alloc.dataptr then some (-enomem, pre, none :: unset)
      else
        let c : QueueData := ⟨pre.toNat, 0, Kfifo.alloc 0, Kfifo.alloc 0, false⟩
        let size := getsize cpu s defaultSize
        let next := pre + size
        if next < size then some (-einval, next, some c :: unset)
        else
          let c := { c with endIdx := next.toNat }
          match alloc.ready with
          | none => some (-enomem, next, some c :: unset)
          | some addedReady =>
              let c := { c with ready := Kfifo.alloc (size.toNat + addedReady) }
              match alloc.idle with
              | none => some (-enomem, next, some c :: unset)
              | some addedIdle =>
                  match fillLoop turns pre next (Kfifo.alloc (size.toNat + addedIdle)) with
                  | none => none
                  | some (filled, idle) =>
                      (buildLoop turns s defaultSize (cpu + 1) next
                        (if filled then ret else -enomem) rest).map fun later =>
                          (later.1, later.2.1, some { c with idle := idle } :: later.2.2)

/-- The elements behind `memset`; a state of 0xec has no name and is not read. -/
def memsetElem (pre : ℕ) (behind : ℕ → IpKeyInfoWrap) (i : ℕ) : IpKeyInfoWrap :=
  if i < pre then ⟨infoEc, 0xececec, (behind i).state⟩ else behind i

/-- `ip_queue_create` on its static variables, with every loop as the source has it. -/
def ipQueueCreateStatics (turns : ℕ) (s : List IpsCpuQueueSize) (defaultSize ms : UInt16)
    (percpu : Bool) (cpus : List CpuAlloc) (vmalloc : Bool) (behind : ℕ → IpKeyInfoWrap)
    (statics : Statics) : Option (Int × Statics) :=
  if !percpu then some (-enomem, { statics with qptr := none })
  else
    match buildLoop turns s defaultSize 0 0 0 cpus with
    | none => none
    | some (err, pre, dataptrs) =>
        let statics := { statics with qptr := some dataptrs }
        if err ≠ 0 then some (err, statics.ipQueueExit)
        else if !vmalloc then some (-enomem, { statics with m := none }.ipQueueExit)
        else
          match freeLoop turns 0 pre (memsetElem pre.toNat behind) with
          | none => none
          | some elem =>
              some (areaSize pre.toNat,
                { statics with
                  m := some
                    { idxArray := List.replicate ipsIdxArraySize 0xecec
                      idxNum := 0
                      ipKeyInfoTotalSize := pre.toNat
                      elem := elem }
                  waitMs := if ms < 10 then 10 else if ms > 1000 then 1000 else ms.toNat })

/-! ## The loops end -/

section Loops

variable {turns : ℕ} {i stop : UInt16}

theorem toNat_succ_of_lt (before : i < stop) : (i + 1).toNat = i.toNat + 1 := by
  have below : i.toNat < stop.toNat := UInt16.lt_iff_toNat_lt.mp before
  have bound := stop.toNat_lt
  rw [UInt16.toNat_add]
  apply Nat.mod_eq_of_lt
  simp only [UInt16.toNat_one]
  omega

theorem fillLoop_eq (idle : Kfifo ℕ) (enough : stop.toNat - i.toNat < turns) :
    fillLoop turns i stop idle =
      some (fillIdle idle (List.range' i.toNat (stop.toNat - i.toNat))) := by
  induction turns generalizing i idle with
  | zero => omega
  | succ turns ih =>
      rw [fillLoop]
      split
      · next before =>
          have next := toNat_succ_of_lt before
          have below : i.toNat < stop.toNat := UInt16.lt_iff_toNat_lt.mp before
          have some_left : stop.toNat - i.toNat = stop.toNat - (i.toNat + 1) + 1 := by omega
          rw [some_left, List.range'_succ, fillIdle]
          split
          · rw [ih _ (by omega), next]
          · rfl
      · next reached =>
          have above : stop.toNat ≤ i.toNat := not_lt.mp (mt UInt16.lt_iff_toNat_lt.mpr reached)
          rw [Nat.sub_eq_zero_of_le above]
          rfl

theorem freeLoop_eq (elem : ℕ → IpKeyInfoWrap) (enough : stop.toNat - i.toNat < turns) :
    freeLoop turns i stop elem = some fun j =>
      if i.toNat ≤ j ∧ j < stop.toNat then { elem j with times := 0, state := .free }
      else elem j := by
  induction turns generalizing i elem with
  | zero => omega
  | succ turns ih =>
      rw [freeLoop]
      split
      · next before =>
          have next := toNat_succ_of_lt before
          have below : i.toNat < stop.toNat := UInt16.lt_iff_toNat_lt.mp before
          rw [ih _ (by omega), next]
          congr 1
          funext j
          rcases eq_or_ne j i.toNat with rfl | other
          · simp [below]
          · rw [Function.update_of_ne other]
            have same : i.toNat + 1 ≤ j ↔ i.toNat ≤ j := by omega
            simp only [same]
      · next reached =>
          have above : stop.toNat ≤ i.toNat := not_lt.mp (mt UInt16.lt_iff_toNat_lt.mpr reached)
          congr 1
          funext j
          rw [if_neg (by omega)]

theorem freeLoop_memset (enough : 65536 < turns) (pre : UInt16) (behind : ℕ → IpKeyInfoWrap) :
    freeLoop turns 0 pre (memsetElem pre.toNat behind) = some (newElem pre.toNat behind) := by
  have bound := pre.toNat_lt
  rw [freeLoop_eq _ (by omega)]
  congr 1
  funext j
  by_cases below : j < pre.toNat
  · simp [memsetElem, newElem, below]
  · simp [memsetElem, newElem, below]

end Loops

/-! ## The pool as a whole -/

section Build

variable {turns : ℕ} {s : List IpsCpuQueueSize} {defaultSize ms : UInt16} {percpu vmalloc : Bool}
  {cpus : List CpuAlloc} {behind : ℕ → IpKeyInfoWrap} {counters : Counters}

/-- The loop ends with the error and the number of indices of `createLoop`, and without an error
every CPU is set up. -/
structure Builds (created : Int × ℕ × List QueueData)
    (built : Int × UInt16 × List (Option QueueData)) : Prop where
  err : built.1 = created.1
  total : built.2.1.toNat = created.2.1
  set : created.1 = 0 → built.2.2 = created.2.2.map some

theorem builds_buildLoop (enough : 65536 < turns) (cpu : ℕ) (pre : UInt16) (ret : Int) :
    ∃ built, buildLoop turns s defaultSize cpu pre ret cpus = some built ∧
      Builds (createLoop s defaultSize cpu pre.toNat ret cpus) built := by
  induction cpus generalizing cpu pre ret with
  | nil => exact ⟨(ret, pre, []), rfl, rfl, rfl, fun _ => rfl⟩
  | cons alloc cpus ih =>
      rcases alloc with ⟨dataptr, ready, idle⟩
      have sum : (pre + getsize cpu s defaultSize).toNat =
          (pre.toNat + (getsize cpu s defaultSize).toNat) % 65536 := UInt16.toNat_add _ _
      have order : pre + getsize cpu s defaultSize < getsize cpu s defaultSize ↔
          (pre.toNat + (getsize cpu s defaultSize).toNat) % 65536 <
            (getsize cpu s defaultSize).toNat := by
        rw [UInt16.lt_iff_toNat_lt, sum]
      rw [buildLoop, createLoop]
      cases dataptr with
      | false =>
          refine ⟨_, rfl, rfl, rfl, ?_⟩
          intro failed
          simp [enomem] at failed
      | true =>
          simp only [Bool.not_true, Bool.false_eq_true, if_false, order]
          split
          · refine ⟨_, rfl, rfl, sum, ?_⟩
            intro failed
            simp [einval] at failed
          · cases ready with
            | none =>
                refine ⟨_, rfl, rfl, sum, ?_⟩
                intro failed
                simp [enomem] at failed
            | some addedReady =>
                cases idle with
                | none =>
                    refine ⟨_, rfl, rfl, sum, ?_⟩
                    intro failed
                    simp [enomem] at failed
                | some addedIdle =>
                    have bound := (pre + getsize cpu s defaultSize).toNat_lt
                    have turnsLeft :
                        (pre + getsize cpu s defaultSize).toNat - pre.toNat < turns := by
                      omega
                    simp only [fillLoop_eq _ turnsLeft, sum]
                    generalize fillIdle _ _ = filled
                    rcases ih (cpu + 1) (pre + getsize cpu s defaultSize)
                      (if filled.1 then ret else -enomem) with ⟨built, ends, builds⟩
                    rw [sum] at builds
                    rw [ends]
                    refine ⟨_, rfl, builds.err, builds.total, ?_⟩
                    intro succeeded
                    simp only [List.map_cons, builds.set succeeded]

/-- The variables after a call that found no pool. -/
def Statics.of (waitMs : ℕ) : Option IpQueue → Statics
  | none => ⟨none, none, waitMs⟩
  | some q => ⟨some (q.qptr.map some), some q.m, q.waitMs⟩

theorem ipQueueCreateStatics_eq (enough : 65536 < turns) (waitMs : ℕ) :
    ipQueueCreateStatics turns s defaultSize ms percpu cpus vmalloc behind ⟨none, none, waitMs⟩ =
      some ((ipQueueCreate s defaultSize ms percpu cpus vmalloc behind counters).1,
        Statics.of waitMs
          (ipQueueCreate s defaultSize ms percpu cpus vmalloc behind counters).2) := by
  unfold ipQueueCreateStatics ipQueueCreate
  cases percpu with
  | false => rfl
  | true =>
      rcases @builds_buildLoop turns s defaultSize cpus enough 0 0 0 with
        ⟨⟨err, pre, dataptrs⟩, ends, builds⟩
      rcases builds with ⟨rfl, total, set⟩
      simp only [UInt16.toNat_zero] at total set
      simp only [Bool.not_true, Bool.false_eq_true, if_false, ends, UInt16.toNat_zero]
      by_cases failed : (createLoop s defaultSize 0 0 0 cpus).1 = 0
      · cases vmalloc with
        | false =>
            simp only [failed, ne_eq, not_true_eq_false, if_false, Bool.not_false, if_true]
            rfl
        | true =>
            have memset := freeLoop_memset enough pre behind
            rw [total] at memset
            simp only [failed, ne_eq, not_true_eq_false, if_false, Bool.not_true,
              Bool.false_eq_true, set failed, total, memset]
            rfl
      · simp only [failed, ne_eq, not_false_eq_true, if_true]
        rfl

end Build

/-! ## The ranges -/

/-- The size that a CPU is given: that of the first entry for it, or the default. -/
def requestedSize (s : List IpsCpuQueueSize) (defaultSize : UInt16) (cpu : ℕ) : ℕ :=
  match s.find? fun entry => entry.cpuidx.toInt = (cpu : Int) with
  | none => defaultSize.toNat
  | some entry => entry.size.toNat

/-- Every allocation of the call succeeds. -/
structure AllAllocated (percpu : Bool) (cpus : List CpuAlloc) (vmalloc : Bool) : Prop where
  percpu : percpu = true
  cpus : ∀ alloc ∈ cpus, alloc.Allocated
  vmalloc : vmalloc = true

/-- The ranges of the CPUs divide the indices; all of them are idle and their elements free. -/
structure Divides (sizes : ℕ → ℕ) (count : ℕ) (queues : List QueueData) (area : IpsDmaArea) :
    Prop where
  length : queues.length = count
  total : area.ipKeyInfoTotalSize = ∑ cpu ∈ Finset.range count, sizes cpu
  sizes : ∀ cpu c, queues[cpu]? = some c → c.endIdx = c.start + sizes cpu
  consecutive : Consecutive 0 queues area.ipKeyInfoTotalSize
  idle : ∀ c ∈ queues, c.idle.items = List.range' c.start (c.endIdx - c.start)
  covers : queues.flatMap (fun c => c.idle.items) = List.range area.ipKeyInfoTotalSize
  ready : ∀ c ∈ queues, c.ready.items = []
  free : ∀ i < area.ipKeyInfoTotalSize, (area.elem i).state = .free

section Ranges

variable {s : List IpsCpuQueueSize} {defaultSize ms : UInt16} {percpu vmalloc : Bool}
  {cpus : List CpuAlloc} {behind : ℕ → IpKeyInfoWrap} {counters : Counters} {cpu pre : ℕ}

theorem toNat_getsize (s : List IpsCpuQueueSize) (defaultSize : UInt16) (cpu : ℕ) :
    (getsize cpu s defaultSize).toNat = requestedSize s defaultSize cpu := by
  induction s with
  | nil => rfl
  | cons first rest ih =>
      rw [getsize]
      by_cases here : first.cpuidx.toInt = cpu
      · simp [requestedSize, here]
      · rw [if_neg here, ih]
        simp [requestedSize, here]

theorem totalSize_eq_sum (s : List IpsCpuQueueSize) (defaultSize : UInt16) (cpu : ℕ)
    (cpus : List CpuAlloc) :
    totalSize s defaultSize cpu cpus =
      ∑ i ∈ Finset.range cpus.length, requestedSize s defaultSize (cpu + i) := by
  induction cpus generalizing cpu with
  | nil => rfl
  | cons alloc cpus ih =>
      rw [totalSize, ih, List.length_cons, Finset.sum_range_succ', toNat_getsize, Nat.add_comm]
      simp only [Nat.add_assoc, Nat.add_comm 1, Nat.add_zero]

theorem Consecutive.flatMap_range' {lo hi : ℕ} {queues : List QueueData}
    (consecutive : Consecutive lo queues hi) :
    queues.flatMap (fun c => List.range' c.start (c.endIdx - c.start)) =
      List.range' lo (hi - lo) := by
  induction queues generalizing lo with
  | nil =>
      obtain rfl : lo = hi := consecutive
      simp
  | cons c queues ih =>
      rcases consecutive with ⟨rfl, ordered, rest⟩
      have above := rest.bounds.1
      have ends : c.start + (c.endIdx - c.start) = c.endIdx := by omega
      have whole : hi - c.start = c.endIdx - c.start + (hi - c.endIdx) := by omega
      rw [List.flatMap_cons, ih rest, whole, ← List.range'_append_1, ends]

theorem createLoop_sizes (fits : Fits s defaultSize cpu pre cpus) :
    (createLoop s defaultSize cpu pre 0 cpus).2.2.length = cpus.length ∧
      (createLoop s defaultSize cpu pre 0 cpus).2.1 = pre + totalSize s defaultSize cpu cpus ∧
        ∀ i c, (createLoop s defaultSize cpu pre 0 cpus).2.2[i]? = some c →
          c.endIdx = c.start + requestedSize s defaultSize (cpu + i) := by
  induction cpus generalizing cpu pre with
  | nil => simp [createLoop, totalSize]
  | cons alloc cpus ih =>
      rw [fits_cons] at fits
      rcases fits with ⟨allocated, rest⟩
      have small := rest.2
      have turn := createLoop_turn s defaultSize cpu pre 0 alloc cpus (by omega)
      generalize createLoop s defaultSize cpu pre 0 (alloc :: cpus) = result at turn ⊢
      cases turn with
      | refused next err refused negative => exact absurd allocated refused
      | wraps next err large negative => omega
      | sets c later allocated below fresh starts ends continued =>
          subst continued
          rcases ih rest with ⟨length, total, sizes⟩
          refine ⟨by simp [length], ?_, ?_⟩
          · rw [total, totalSize, Nat.add_assoc]
          · intro i other present
            cases i with
            | zero =>
                obtain rfl : c = other := by simpa using present
                rw [ends, starts, toNat_getsize, Nat.add_zero]
            | succ i =>
                have later := sizes i other (by simpa using present)
                rwa [Nat.add_right_comm, Nat.add_assoc] at later

theorem fits_iff (cpus : List CpuAlloc) :
    Fits s defaultSize 0 0 cpus ↔ (∀ alloc ∈ cpus, alloc.Allocated) ∧
      ∑ cpu ∈ Finset.range cpus.length, requestedSize s defaultSize cpu ≤ 65535 := by
  simp only [Fits, totalSize_eq_sum, Nat.zero_add, Nat.lt_succ_iff]

/-- A pool that is created divides the indices by the requested sizes. -/
theorem exists_divides (creatable : Creatable s defaultSize percpu cpus vmalloc) :
    ∃ q : IpQueue, ipQueueCreate s defaultSize ms percpu cpus vmalloc behind counters =
        ((areaSize q.m.ipKeyInfoTotalSize : Int), some q) ∧
      Divides (requestedSize s defaultSize) cpus.length q.qptr q.m := by
  rcases creatable with ⟨rfl, fits, rfl⟩
  have noError := (@createLoop_error s defaultSize 0 0 cpus (by omega)).1 fits
  rcases createLoop_spec (by omega) noError with ⟨consecutive, fresh⟩
  rcases createLoop_sizes fits with ⟨length, total, sizes⟩
  have idle : ∀ c ∈ (createLoop s defaultSize 0 0 0 cpus).2.2,
      c.idle.items = List.range' c.start (c.endIdx - c.start) :=
    fun c member => (fresh c member).idle
  simp only [ipQueueCreate, noError, Bool.not_true, Bool.false_eq_true, if_false, ne_eq,
    not_true_eq_false]
  refine ⟨⟨_, ⟨_, _, _, _⟩, _, _⟩, rfl, ?_⟩
  refine ⟨length, ?_, ?_, consecutive, idle, ?_, fun c member => (fresh c member).ready, ?_⟩
  · simp [total, totalSize_eq_sum]
  · intro cpu c present
    simpa using sizes cpu c present
  · rw [List.flatMap_congr idle, consecutive.flatMap_range', Nat.sub_zero, List.range_eq_range']
  · intro i below
    simp [newElem, below]

end Ranges

/-- Every loop ends. The indices are divided by the requested sizes when they fit and every
allocation succeeds; else the call fails and leaves no pool behind. -/
theorem ipQueueCreate_divides (s : List IpsCpuQueueSize) (defaultSize ms : UInt16) (percpu : Bool)
    (cpus : List CpuAlloc) (vmalloc : Bool) (behind : ℕ → IpKeyInfoWrap) (waitMs : ℕ) :
    ∃ turns ret after, ipQueueCreateStatics turns s defaultSize ms percpu cpus vmalloc behind
        ⟨none, none, waitMs⟩ = some (ret, after) ∧
      (AllAllocated percpu cpus vmalloc ∧
          ∑ cpu ∈ Finset.range cpus.length, requestedSize s defaultSize cpu ≤ 65535 →
        ∃ queues area, after.qptr = some (queues.map some) ∧ after.m = some area ∧
          ret = areaSize area.ipKeyInfoTotalSize ∧
          Divides (requestedSize s defaultSize) cpus.length queues area) ∧
      (¬AllAllocated percpu cpus vmalloc ∨
          65535 < ∑ cpu ∈ Finset.range cpus.length, requestedSize s defaultSize cpu →
        ret < 0 ∧ after.qptr = none ∧ after.m = none) := by
  have ends := @ipQueueCreateStatics_eq 65537 s defaultSize ms percpu vmalloc cpus behind
    Counters.initial (by omega) waitMs
  refine ⟨65537, _, _, ends, ?_, ?_⟩
  · rintro ⟨allocated, sum⟩
    have fits : Fits s defaultSize 0 0 cpus := (fits_iff cpus).mpr ⟨allocated.cpus, sum⟩
    rcases @exists_divides s defaultSize ms percpu vmalloc cpus behind Counters.initial
      ⟨allocated.percpu, fits, allocated.vmalloc⟩ with ⟨q, created, divides⟩
    rw [created]
    exact ⟨q.qptr, q.m, rfl, rfl, rfl, divides⟩
  · intro failing
    have uncreatable : ¬Creatable s defaultSize percpu cpus vmalloc := by
      intro creatable
      rcases (fits_iff cpus).mp creatable.fits with ⟨allocated, sum⟩
      rcases failing with failed | large
      · exact failed ⟨creatable.percpu, allocated, creatable.vmalloc⟩
      · omega
    rcases @ipQueueCreate_cases s defaultSize ms cpus percpu vmalloc behind Counters.initial with
      ⟨creatable, -⟩ | ⟨-, negative, none⟩
    · exact absurd creatable uncreatable
    · rw [none]
      exact ⟨negative, rfl, rfl⟩

end Linguafranca.Ipshark2
