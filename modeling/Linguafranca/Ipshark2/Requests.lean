import Linguafranca.Ipshark2.Configuration

/-!
# What the requests access

`ips_freemem` bounds neither the number nor the indices the user passes, and neither it nor
`ips_fetch` looks whether there is a pool. What the code accesses on its own stays in bounds:
every index in a fifo is in the range of its CPU (`Homed`), whatever was recycled.
-/

namespace Linguafranca.Ipshark2

open Run
open Ipshark (Packet)

/-- What a request accesses: positions of `idx_array`, the elements `num2addr` is asked for,
and whether `m` or `qptr` is dereferenced untested. -/
structure Accesses where
  positions : List ℕ
  elements : List ℕ
  pool : Bool

/-- The indices that a put takes out of the idle fifo. -/
def poppedIdle (elem : ℕ → IpKeyInfoWrap) (idle : Kfifo ℕ) : List ℕ :=
  idle.items.take (idle.items.length - (takeIdle elem idle).2.2.items.length)

/-- The elements that a put accesses. -/
def putElements (cpu : ℕ) (q : IpQueue) : List ℕ :=
  match q.qptr[cpu]? with
  | none => []
  | some c => poppedIdle q.m.elem c.idle

section

variable (jhash : List UInt8 → UInt32 → UInt32)

/-- What an event accesses of the area, and whether it needs one. -/
def accesses (s : Module) : ModuleEvent → Accesses
  | .config _ => ⟨[], [], false⟩
  | .fetch remaining interrupted => ⟨[], [], (ipsFetch remaining interrupted s).1⟩
  | .freemem args =>
      ⟨(ipsFreemem args s).1.1, (ipsFreemem args s).1.2, !(ipsFreemem args s).1.2.isEmpty⟩
  | .packet p =>
      -- the put tests `qptr`
      match s.hooks, packetInfo jhash p s.data, s.pool with
      | true, some _, some q => ⟨[], putElements p.cpu q, false⟩
      | _, _, _ => ⟨[], [], false⟩

end

/-- The number of elements of the area. -/
def Module.total (s : Module) : ℕ :=
  match s.pool with
  | none => 0
  | some q => q.m.ipKeyInfoTotalSize

/-- The accesses stay within the index array, the elements and the lifetime of the area. -/
structure Safe (s : Module) (a : Accesses) : Prop where
  positions : ∀ i ∈ a.positions, i < ipsIdxArraySize
  elements : ∀ i ∈ a.elements, i < s.total
  pool : a.pool = true → s.pool.isSome

/-- A fetch without a pool finds nothing to move, and indices are given back to a pool that has
them, not more than the array holds. -/
def Orderly (s : Module) : ModuleEvent → Prop
  | .config _ => True
  | .fetch _ interrupted =>
      s.pool = none →
        if interrupted then s.counts.puttimes.toNat ≤ ipsIdxArraySize / 2
        else s.counts.puttimes = 0
  | .freemem args => args.left = 0 → 0 < args.idxNum.toNat →
      s.pool.isSome ∧ args.idxNum.toNat ≤ ipsIdxArraySize ∧
        ∀ i < args.idxNum.toNat, (args.idxArray i).toNat < s.total
  | .packet _ => True

/-! ## The indices in the fifos -/

/-- Every queued index is in the range of its CPU. -/
structure Homed (q : IpQueue) : Prop where
  ranges : Consecutive 0 q.qptr q.m.ipKeyInfoTotalSize
  home : ∀ c ∈ q.qptr, ∀ i, i ∈ c.idle.items ∨ i ∈ c.ready.items → c.InRange i

/-- The CPU keeps its range and gets no foreign index. -/
structure Within (c c' : QueueData) : Prop where
  start : c'.start = c.start
  endIdx : c'.endIdx = c.endIdx
  items : ∀ i, i ∈ c'.idle.items ∨ i ∈ c'.ready.items →
    (i ∈ c.idle.items ∨ i ∈ c.ready.items) ∨ c.InRange i

section Home

variable {q q' : IpQueue} {c c' : QueueData} {cpus cpus' : List QueueData} {lo hi i : ℕ}

theorem Within.refl (c : QueueData) : Within c c :=
  ⟨rfl, rfl, fun _ member => Or.inl member⟩

theorem forall₂_within_refl (cpus : List QueueData) : List.Forall₂ Within cpus cpus :=
  List.forall₂_same.mpr fun c _ => Within.refl c

theorem Within.inRange_iff (within : Within c c') : c'.InRange i ↔ c.InRange i := by
  simp only [QueueData.InRange, within.start, within.endIdx]

theorem Consecutive.within (consecutive : Consecutive lo cpus hi)
    (within : List.Forall₂ Within cpus cpus') : Consecutive lo cpus' hi := by
  induction within generalizing lo with
  | nil => exact consecutive
  | cons first rest ih =>
      rcases consecutive with ⟨starts, ordered, later⟩
      refine ⟨first.start.trans starts, ?_, ?_⟩
      · rw [first.start, first.endIdx]
        exact ordered
      · rw [first.endIdx]
        exact ih later

theorem exists_within (within : List.Forall₂ Within cpus cpus') (member : c' ∈ cpus') :
    ∃ c ∈ cpus, Within c c' := by
  induction within with
  | nil => cases member
  | cons first rest ih =>
      rcases List.mem_cons.mp member with rfl | later
      · exact ⟨_, List.mem_cons_self, first⟩
      · rcases ih later with ⟨c, present, same⟩
        exact ⟨c, List.mem_cons_of_mem _ present, same⟩

theorem Homed.within (homed : Homed q) (within : List.Forall₂ Within q.qptr q'.qptr)
    (total : q'.m.ipKeyInfoTotalSize = q.m.ipKeyInfoTotalSize) : Homed q' := by
  refine ⟨?_, ?_⟩
  · rw [total]
    exact homed.ranges.within within
  · intro c' member i inFifo
    rcases exists_within within member with ⟨c, present, same⟩
    rw [same.inRange_iff]
    rcases same.items i inFifo with old | inside
    · exact homed.home c present i old
    · exact inside

theorem Homed.lt_total (homed : Homed q) (member : c ∈ q.qptr)
    (inFifo : i ∈ c.idle.items ∨ i ∈ c.ready.items) : i < q.m.ipKeyInfoTotalSize := by
  have inside := homed.home c member i inFifo
  have upper := (homed.ranges.bounds.2 c member).2.2
  exact lt_of_lt_of_le inside.2 upper

theorem homed_of_creates (created : Creates q) : Homed q := by
  have inv := poolInv_of_creates created
  exact ⟨inv.ranges, inv.partitioned.home⟩

/-! ### A put -/

theorem getIdle_mem (elem : ℕ → IpKeyInfoWrap) (turns : ℕ) (idle : Kfifo ℕ) :
    (∀ i, (getIdle elem turns idle).1 = some i → i ∈ idle.items) ∧
      (getIdle elem turns idle).2.2.items ⊆ idle.items := by
  induction turns generalizing idle with
  | zero => exact ⟨fun i none => by simp [getIdle] at none, List.Subset.refl _⟩
  | succ turns ih =>
      rw [getIdle]
      cases taken : idle.get with
      | none => exact ⟨fun i none => by simp at none, List.Subset.refl _⟩
      | some pair =>
          rcases pair with ⟨first, left⟩
          rcases Kfifo.get_eq_some taken with ⟨items, -⟩
          have behind : left.items ⊆ idle.items := by
            rw [items]
            exact List.subset_cons_self first left.items
          dsimp only
          split
          · rcases ih left with ⟨some, rest⟩
            exact ⟨fun i found => behind (some i found), List.Subset.trans rest behind⟩
          · refine ⟨?_, behind⟩
            intro i found
            obtain rfl := Option.some.inj found
            simp [items]

theorem within_putReady (inIdle : i ∈ c.idle.items) {left : Kfifo ℕ}
    (behind : left.items ⊆ c.idle.items) :
    Within c (QueueData.putReady { c with idle := left } i).2 := by
  simp only [QueueData.putReady]
  split
  · refine ⟨rfl, rfl, ?_⟩
    rintro j (idle | ready)
    · exact Or.inl (Or.inl (behind idle))
    · rcases Kfifo.mem_of_mem_put ready with old | rfl
      · exact Or.inl (Or.inr old)
      · exact Or.inl (Or.inl inIdle)
  · refine ⟨rfl, rfl, ?_⟩
    rintro j (idle | ready)
    · rcases Kfifo.mem_of_mem_put idle with old | rfl
      · exact Or.inl (Or.inl (behind old))
      · exact Or.inl (Or.inl inIdle)
    · exact Or.inl (Or.inr ready)

theorem Within.updateAlarm (within : Within c c') : Within c c'.updateAlarm := by
  rcases updateAlarm_fields c' with ⟨start, endIdx, idle, ready⟩
  refine ⟨start.trans within.start, endIdx.trans within.endIdx, ?_⟩
  rw [idle, ready]
  exact within.items

theorem forall₂_set {cpu : ℕ} (present : cpus[cpu]? = some c) (within : Within c c') :
    List.Forall₂ Within cpus (cpus.set cpu c') := by
  rcases split_of_getElem? present with ⟨before, after, rfl, -, set⟩
  rw [set]
  apply List.rel_append (forall₂_within_refl before)
  exact .cons within (forall₂_within_refl after)

theorem Homed.put (homed : Homed q) (cpu : ℕ) (src : IpKeyInfo) :
    Homed (ipQueuePut cpu src q) := by
  cases present : q.qptr[cpu]? with
  | none => simpa [ipQueuePut, present] using homed
  | some c =>
      rcases getIdle_mem q.m.elem (c.idle.items.length + 1) c.idle with ⟨inIdle, behind⟩
      cases taken : (takeIdle q.m.elem c.idle).1 with
      | none =>
          apply homed.within
          · simp only [ipQueuePut, present, taken]
            apply forall₂_set present
            exact ⟨rfl, rfl, fun i => Or.inl ∘ Or.imp_left (@behind i)⟩
          · simp only [ipQueuePut, present, taken]
      | some i =>
          apply homed.within
          · simp only [ipQueuePut, present, taken]
            apply forall₂_set present
            exact (within_putReady (inIdle i taken) behind).updateAlarm
          · simp only [ipQueuePut, present, taken, total_fill]

theorem putElements_lt (homed : Homed q) (cpu : ℕ) :
    ∀ i ∈ putElements cpu q, i < q.m.ipKeyInfoTotalSize := by
  intro i member
  simp only [putElements] at member
  cases present : q.qptr[cpu]? with
  | none => simp [present] at member
  | some c =>
      simp only [present] at member
      exact homed.lt_total (List.mem_of_getElem? present) (Or.inl (List.mem_of_mem_take member))

/-! ### Handing over and taking back -/

theorem Drains.within {moved : List ℕ} (drains : Drains cpus moved cpus') :
    List.Forall₂ Within cpus cpus' := by
  induction drains with
  | nil => exact .nil
  | cons same idle ready later ih =>
      refine .cons ⟨same.start, same.endIdx, ?_⟩ ih
      rintro i (inIdle | inReady)
      · rw [idle] at inIdle
        exact Or.inl (Or.inl inIdle)
      · rw [ready]
        exact Or.inl (Or.inr (List.mem_append_right _ inReady))

theorem Homed.move2dma (homed : Homed q) : Homed (ipQueueMove2dma q) :=
  homed.within (move2dmaLoop_drains q.qptr 0 ipsIdxArraySize).within rfl

theorem Scanned.within (scanned : Scanned c c') : Within c c' := by
  cases scanned with
  | passed => exact Within.refl c
  | took i inside =>
      refine ⟨rfl, rfl, ?_⟩
      rintro j (inIdle | inReady)
      · rcases Kfifo.mem_of_mem_put inIdle with old | rfl
        · exact Or.inl (Or.inl old)
        · exact Or.inr inside
      · exact Or.inl (Or.inr inReady)

theorem Homed.recycleOne (homed : Homed q) (i : ℕ) : Homed (recycleOne q i).2 := by
  rw [Ipshark2.recycleOne]
  split
  · exact ⟨homed.ranges, homed.home⟩
  · have scanned := scanned_recycleScan q.qptr i q.counters
    apply homed.within (scanned.imp fun _ _ => Scanned.within)
    dsimp only
    split <;> rfl

theorem Homed.recycle (homed : Homed q) (idlist : List ℕ) : Homed (ipQueueRecycle idlist q).2 := by
  induction idlist generalizing q with
  | nil => exact homed
  | cons i idlist ih => exact ih (homed.recycleOne i)

end Home

/-! ## Fetches -/

/-- The ready indices are handed over and the puts since the last time are forgotten. -/
def handOver (s : Module) : Module :=
  { clearPuttimes s with pool := (clearPuttimes s).pool.map ipQueueMove2dma }

/-- What a fetch does. -/
inductive Fetches (remaining : ℕ) (interrupted : Bool) (s : Module) : Bool × Int × Module → Prop
    where
  | woken : ipsIdxArraySize / 2 < s.counts.puttimes.toNat →
      Fetches remaining interrupted s (true, max 1 (remaining : Int), handOver s)
  | signalled : s.counts.puttimes.toNat ≤ ipsIdxArraySize / 2 → interrupted = true →
      Fetches remaining interrupted s (false, -erestartsys, s)
  | late : s.counts.puttimes.toNat ≤ ipsIdxArraySize / 2 → interrupted = false →
      0 < s.counts.puttimes →
      Fetches remaining interrupted s (true, 0, handOver s)
  | idle : interrupted = false → s.counts.puttimes = 0 →
      Fetches remaining interrupted s (false, -1, s)

theorem fetches_ipsFetch (remaining : ℕ) (interrupted : Bool) (s : Module) :
    Fetches remaining interrupted s (ipsFetch remaining interrupted s) := by
  by_cases woken : ipsIdxArraySize / 2 < s.counts.puttimes.toNat
  · have positive : (0 : Int) < max 1 (remaining : Int) := by omega
    have fetched : ipsFetch remaining interrupted s =
        (true, max 1 (remaining : Int), handOver s) := by
      simp only [ipsFetch, ipQueueWait, ipQueueShallWakeup, woken, decide_true, if_true,
        positive.ne', if_false, positive, handOver]
    rw [fetched]
    exact .woken woken
  · have asleep := not_lt.mp woken
    cases interrupted with
    | true =>
        have fetched : ipsFetch remaining true s = (false, -erestartsys, s) := by
          simp [ipsFetch, ipQueueWait, ipQueueShallWakeup, woken, erestartsys]
        rw [fetched]
        exact .signalled asleep rfl
    | false =>
        by_cases some : 0 < s.counts.puttimes
        · have fetched : ipsFetch remaining false s = (true, 0, handOver s) := by
            simp [ipsFetch, ipQueueWait, ipQueueShallWakeup, woken, ipQueueHasData, some, handOver]
          rw [fetched]
          exact .late asleep rfl some
        · have fetched : ipsFetch remaining false s = (false, -1, s) := by
            simp [ipsFetch, ipQueueWait, ipQueueShallWakeup, woken, ipQueueHasData, some]
          rw [fetched]
          exact .idle rfl (by simpa using some)

theorem moves_iff {remaining : ℕ} {interrupted : Bool} {s : Module} {result : Bool × Int × Module}
    (fetches : Fetches remaining interrupted s result) : result.1 = true ↔
      ¬if interrupted then s.counts.puttimes.toNat ≤ ipsIdxArraySize / 2
        else s.counts.puttimes = 0 := by
  cases fetches with
  | woken many =>
      have some : s.counts.puttimes ≠ 0 := by
        intro none
        simp [none] at many
      cases interrupted <;> simp [some, many]
  | signalled few signal => simp [signal, few]
  | late few quiet some =>
      have some : s.counts.puttimes ≠ 0 := by
        intro none
        simp [none] at some
      simp [quiet, some]
  | idle quiet none => simp [quiet, none]

/-! ## Runs -/

section Runs

variable {jhash : List UInt8 → UInt32 → UInt32} {s : Module}

/-- If there is a pool, its indices are at home. -/
def HomedPool (s : Module) : Prop :=
  ∀ q, s.pool = some q → Homed q

theorem homedPool_of_none {s : Module} (none : s.pool = none) : HomedPool s := by
  intro q pool
  simp [none] at pool

theorem HomedPool.setCounts (homed : HomedPool s) (counters : Counters) :
    HomedPool (s.setCounts counters) := by
  intro q' pool
  cases old : s.pool with
  | none => simp [Module.setCounts, old] at pool
  | some q =>
      simp only [Module.setCounts, old, Option.some.injEq] at pool
      subst pool
      exact ⟨(homed q old).ranges, (homed q old).home⟩

theorem HomedPool.map (homed : HomedPool s) {change : IpQueue → IpQueue}
    (keeps : ∀ q, Homed q → Homed (change q)) :
    HomedPool { s with pool := s.pool.map change } := by
  intro q' pool
  rcases Option.map_eq_some_iff.mp pool with ⟨q, old, rfl⟩
  exact keeps q (homed q old)

theorem HomedPool.fetch (homed : HomedPool s) (remaining : ℕ) (interrupted : Bool) :
    HomedPool (ipsFetch remaining interrupted s).2.2 := by
  have moved : HomedPool (handOver s) :=
    (homed.setCounts { s.counts with puttimes := 0 }).map fun _ old => old.move2dma
  have fetches := fetches_ipsFetch remaining interrupted s
  generalize ipsFetch remaining interrupted s = result at fetches ⊢
  cases fetches with
  | woken many => exact moved
  | signalled few signal => exact homed
  | late few quiet some => exact moved
  | idle quiet none => exact homed

theorem HomedPool.config (homed : HomedPool s) (args : ConfigArgs) :
    HomedPool (ipsConfig jhash args s).state := by
  have configures := configures_ipsConfig jhash args s
  generalize ipsConfig jhash args s = result at configures ⊢
  have created : ∀ q, args.Pooled s q → Homed q := by
    intro q pooled
    exact homed_of_creates ⟨_, _, _, _, _, _, _, _, pooled.created⟩
  cases configures with
  | noHeader header => exact homed
  | noBuffer header buffer => exact homed
  | noNames buffer names => exact homed
  | noPool err copied refused negative => exact homedPool_of_none rfl
  | stopped q pooled set =>
      rintro q' ⟨⟩
      exact created q pooled
  | dropped q written err pooled error => exact homedPool_of_none rfl
  | installed q written data pooled set =>
      rintro q' ⟨⟩
      exact created q pooled

theorem HomedPool.arrive (homed : HomedPool s) (p : Packet) : HomedPool (arrive jhash p s) := by
  simp only [Ipshark2.arrive]
  split
  · split
    · exact homed
    · exact homed.map fun q old => old.put p.cpu _
  · exact homed

theorem homedPool_step (event : ModuleEvent) (homed : HomedPool s) :
    HomedPool (moduleStep jhash s event) := by
  cases event with
  | config args => exact homed.config args
  | fetch remaining interrupted => exact homed.fetch remaining interrupted
  | freemem args =>
      simp only [moduleStep, ipsFreemem]
      split
      · exact homed
      · exact homed.map fun q old => old.recycle args.idlist
  | packet p => exact homed.arrive p

theorem safe_nothing : Safe s ⟨[], [], false⟩ :=
  ⟨by simp, by simp, by simp⟩

theorem safe_fetch_iff (remaining : ℕ) (interrupted : Bool) :
    Safe s (accesses jhash s (.fetch remaining interrupted)) ↔
      Orderly s (.fetch remaining interrupted) := by
  have moves := moves_iff (fetches_ipsFetch remaining interrupted s)
  constructor
  · intro safe missing
    by_contra moving
    have pool := safe.pool (moves.mpr moving)
    simp [missing] at pool
  · intro orderly
    refine ⟨by simp [accesses], by simp [accesses], ?_⟩
    intro moving
    apply Option.isSome_iff_ne_none.mpr
    intro missing
    exact moves.mp moving (orderly missing)

theorem safe_recycle_iff (args : FreememArgs) :
    Safe s ⟨args.positions, args.idlist, !args.idlist.isEmpty⟩ ↔
      (0 < args.idxNum.toNat → s.pool.isSome ∧ args.idxNum.toNat ≤ ipsIdxArraySize ∧
        ∀ i < args.idxNum.toNat, (args.idxArray i).toNat < s.total) := by
  have nonempty : (!args.idlist.isEmpty) = true ↔ 0 < args.idxNum.toNat := by
    simp [FreememArgs.idlist, FreememArgs.positions, Nat.pos_iff_ne_zero]
  constructor
  · rintro ⟨positions, elements, pool⟩ some
    refine ⟨pool (nonempty.mpr some), ?_, ?_⟩
    · have last := positions (args.idxNum.toNat - 1) (List.mem_range.mpr (by omega))
      omega
    · intro i inside
      exact elements _ (List.mem_map_of_mem (List.mem_range.mpr inside))
  · intro bounded
    refine ⟨?_, ?_, ?_⟩
    · intro i member
      have inside : i < args.idxNum.toNat := List.mem_range.mp member
      have bound := (bounded (by omega)).2.1
      omega
    · intro j member
      rcases List.mem_map.mp member with ⟨i, position, rfl⟩
      have inside : i < args.idxNum.toNat := List.mem_range.mp position
      exact (bounded (by omega)).2.2 i inside
    · intro some
      exact (bounded (nonempty.mp some)).1

theorem safe_freemem_iff (args : FreememArgs) :
    Safe s (accesses jhash s (.freemem args)) ↔ Orderly s (.freemem args) := by
  simp only [Orderly, accesses, ipsFreemem]
  split
  · next unread =>
      simp only [unread, false_imp_iff, iff_true]
      exact safe_nothing
  · next read =>
      simp only [not_not.mp read, forall_const]
      exact safe_recycle_iff args

/-- A put only takes what the fifos hold. -/
theorem safe_packet (p : Packet) (homed : HomedPool s) :
    Safe s (accesses jhash s (.packet p)) := by
  simp only [accesses]
  split
  · next q _ _ pool =>
      refine ⟨by simp, ?_, by simp⟩
      simp only [Module.total, pool]
      exact putElements_lt (homed q pool) p.cpu
  · exact safe_nothing

theorem safe_iff (event : ModuleEvent) (homed : HomedPool s) :
    Safe s (accesses jhash s event) ↔ Orderly s event := by
  cases event with
  | config args => exact ⟨fun _ => trivial, fun _ => safe_nothing⟩
  | fetch remaining interrupted => exact safe_fetch_iff remaining interrupted
  | freemem args => exact safe_freemem_iff args
  | packet p => exact ⟨fun _ => trivial, fun _ => safe_packet p homed⟩

/-- From the loaded module on, every request stays in bounds exactly when every request is
orderly. -/
theorem requests_safe_iff (events : List ModuleEvent) :
    Meets (moduleStep jhash) (fun s event => Safe s (accesses jhash s event)) Module.initial
        events ↔
      Meets (moduleStep jhash) Orderly Module.initial events := by
  have anything : Meets (moduleStep jhash) (fun _ _ => True) Module.initial events :=
    meets_of_mem (fun _ _ _ => trivial) Module.initial
  apply @meets_iff_of_invariant _ _ _ _ HomedPool (fun _ _ => True)
  · intro s event homed _
    exact safe_iff event homed
  · intro s event homed _ _
    exact homedPool_step event homed
  · exact homedPool_of_none rfl
  · exact anything

end Runs

/-- One index is given back on the module as it is loaded, without a pool. -/
def strayFreemem : List ModuleEvent :=
  [.freemem ⟨0, 1, fun _ => 0⟩]

theorem strayFreemem_unsafe :
    ¬Meets (moduleStep fun _ _ => 0)
      (fun s event => Safe s (accesses (fun _ _ => 0) s event)) Module.initial strayFreemem := by
  rintro ⟨safe, -⟩
  exact absurd (safe.pool (by decide)) (by decide)

end Linguafranca.Ipshark2
