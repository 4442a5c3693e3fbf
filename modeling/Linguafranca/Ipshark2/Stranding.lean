import Linguafranca.Ipshark2.Requests

/-!
# Packets that a fetch passes over

Whether `ips_fetch` hands anything over depends on `puttimes`, which counts every put since the
last time and not what is queued: a put without an idle index counts as well, and what did not
fit into one delivery no longer counts. `ip_queue_move2dma` takes the number of indices copied
so far from the room at each CPU anew, so that a delivery can end long before 128 indices.

`puttimes` is zero exactly when nothing is queued as long as every step is harmless.
-/

namespace Linguafranca.Ipshark2

open Run

/-- Some ready fifo is not empty. -/
def Waiting (q : IpQueue) : Prop :=
  ∃ c ∈ q.qptr, c.ready.items ≠ []

instance (q : IpQueue) : Decidable (Waiting q) :=
  inferInstanceAs (Decidable (∃ c ∈ q.qptr, c.ready.items ≠ []))

/-! ## Events on a configured pool -/

/-- What the rest of the module does with a pool, with whole fetches. -/
inductive QueueEvent where
  | put (cpu : ℕ) (src : IpKeyInfo)
  | fetch (remaining : ℕ) (interrupted : Bool)
  | recycle (idlist : List ℕ)

/-- The module after an event. -/
def queueStep (s : Module) : QueueEvent → Module
  | .put cpu src => { s with pool := s.pool.map (ipQueuePut cpu src) }
  | .fetch remaining interrupted => (ipsFetch remaining interrupted s).2.2
  | .recycle idlist => { s with pool := s.pool.map fun q => (ipQueueRecycle idlist q).2 }

/-- A fetch whose wait no signal ends hands at least one index over exactly when there is one,
and else says that there is none. -/
structure FetchesWaiting (s : Module) : Prop where
  served : ∀ q remaining, s.pool = some q →
    (((ipsFetch remaining false s).1 = true ∧ 0 ≤ (ipsFetch remaining false s).2.1 ∧
      ∃ q', (ipsFetch remaining false s).2.2.pool = some q' ∧ 1 ≤ q'.m.idxNum) ↔ Waiting q)
  otherwise : ∀ q remaining, s.pool = some q → ¬Waiting q → (ipsFetch remaining false s).2.1 = -1

/-! ## What a delivery leaves -/

/-- Fifos with that many indices are emptied by one delivery: each that is not empty fits into
the room, from which the number of indices up to then is taken each time. -/
def Fitting : ℕ → Int → List ℕ → Prop
  | _, _, [] => True
  | copied, num, 0 :: rest => Fitting copied num rest
  | copied, num, (length + 1) :: rest =>
      (length + 1 : Int) ≤ num ∧
        Fitting (copied + (length + 1)) (num - (copied + (length + 1))) rest

instance decidableFitting : (copied : ℕ) → (num : Int) → (lengths : List ℕ) →
    Decidable (Fitting copied num lengths)
  | _, _, [] => isTrue trivial
  | copied, num, 0 :: rest => decidableFitting copied num rest
  | copied, num, (length + 1) :: rest =>
      have := decidableFitting (copied + (length + 1)) (num - (copied + (length + 1))) rest
      inferInstanceAs (Decidable ((length + 1 : Int) ≤ num ∧ _))

/-- One delivery takes everything. -/
def FitsDelivery (q : IpQueue) : Prop :=
  Fitting 0 ipsIdxArraySize (q.qptr.map fun c => c.ready.items.length)

instance (q : IpQueue) : Decidable (FitsDelivery q) :=
  inferInstanceAs (Decidable (Fitting _ _ _))

section Delivery

variable {cpus : List QueueData} {copied : ℕ} {num : Int}

theorem fitting_of_empty (empty : ∀ c ∈ cpus, c.ready.items = []) :
    Fitting copied num (cpus.map fun c => c.ready.items.length) := by
  induction cpus with
  | nil => trivial
  | cons c cpus ih =>
      rcases List.forall_mem_cons.mp empty with ⟨first, rest⟩
      simpa [Fitting, first] using ih rest

theorem fitting_of_full (full : num ≤ 0) :
    Fitting copied num (cpus.map fun c => c.ready.items.length) ↔
      ∀ c ∈ cpus, c.ready.items = [] := by
  induction cpus with
  | nil => simp [Fitting]
  | cons c cpus ih =>
      cases items : c.ready.items with
      | nil => simpa [Fitting, items] using ih
      | cons i rest =>
          simp only [List.map_cons, items, List.length_cons, Fitting, List.forall_mem_cons,
            reduceCtorEq, false_and, iff_false, not_and]
          omega

theorem fitting_iff_emptied :
    Fitting copied num (cpus.map fun c => c.ready.items.length) ↔
      ∀ c ∈ (move2dmaLoop cpus copied num).2, c.ready.items = [] := by
  induction cpus generalizing copied num with
  | nil => simp [Fitting, move2dmaLoop]
  | cons c cpus ih =>
      rw [move2dmaLoop]
      cases items : c.ready.items with
      | nil => simpa [Fitting, items] using ih
      | cons i rest =>
          simp only [reduceCtorEq, if_false, List.map_cons, items, List.length_cons, Fitting]
          by_cases fits : (rest.length + 1 : Int) ≤ num
          · -- the fifo is emptied
            have whole : (i :: rest).length ≤ num.toNat := by
              simp only [List.length_cons]
              omega
            have taken : (c.ready.out num.toNat).1 = i :: rest := by
              simp only [Kfifo.out, items]
              exact List.take_of_length_le whole
            have left : (c.ready.out num.toNat).2.items = [] := by
              simp only [Kfifo.out, items]
              exact List.drop_of_length_le whole
            simp only [fits, true_and, taken, List.length_cons]
            split
            · next full =>
                simp only [List.forall_mem_cons, left, true_and]
                exact fitting_of_full (by push_cast at full ⊢; omega)
            · simp only [List.forall_mem_cons, left, true_and]
              rw [← ih]
              push_cast
              rfl
          · have left : (c.ready.out num.toNat).2.items ≠ [] := by
              simp only [Kfifo.out, items, ne_eq, List.drop_eq_nil_iff, List.length_cons]
              omega
            simp only [fits, false_and, false_iff]
            split
            · simp [left]
            · simp [left]

theorem length_moved_pos (room : 0 < num) (waiting : ∃ c ∈ cpus, c.ready.items ≠ []) :
    0 < (move2dmaLoop cpus copied num).1.length := by
  induction cpus with
  | nil => simp at waiting
  | cons c cpus ih =>
      rw [move2dmaLoop]
      split
      · next empty =>
          apply ih
          rcases waiting with ⟨other, member, some⟩
          rcases List.mem_cons.mp member with rfl | later
          · exact absurd empty some
          · exact ⟨other, later, some⟩
      · next some =>
          have first : 0 < (c.ready.out num.toNat).1.length := by
            have length := List.length_pos_iff.mpr some
            simp only [Kfifo.out, List.length_take]
            omega
          dsimp only
          split
          · exact first
          · simp only [List.length_append]
            omega

end Delivery

/-! ## Fetches -/

section Fetching

variable {s : Module} {q : IpQueue} {remaining : ℕ}

theorem fetch_idle (none : s.counts.puttimes = 0) :
    ipsFetch remaining false s = (false, -1, s) := by
  have fetches := fetches_ipsFetch remaining false s
  generalize ipsFetch remaining false s = result at fetches ⊢
  cases fetches with
  | woken many => simp [none] at many
  | signalled few signal => cases signal
  | late few quiet some => simp [none] at some
  | idle quiet none => rfl

theorem fetch_moves (some : s.counts.puttimes ≠ 0) :
    ∃ ret : Int, 0 ≤ ret ∧ ipsFetch remaining false s = (true, ret, handOver s) := by
  have fetches := fetches_ipsFetch remaining false s
  generalize ipsFetch remaining false s = result at fetches ⊢
  cases fetches with
  | woken many => exact ⟨_, by omega, rfl⟩
  | signalled few signal => cases signal
  | late few quiet some => exact ⟨0, le_rfl, rfl⟩
  | idle quiet none => exact absurd none some

theorem pool_handOver (pool : s.pool = some q) :
    (handOver s).pool =
      some (ipQueueMove2dma { q with counters := { q.counters with puttimes := 0 } }) := by
  simp [handOver, clearPuttimes, Module.setCounts, Module.counts, pool]

/-- The puts since the last delivery tell whether something is queued. -/
def Settled (q : IpQueue) : Prop :=
  q.counters.puttimes = 0 ↔ ¬Waiting q

theorem fetchesWaiting_iff (pool : s.pool = some q) : FetchesWaiting s ↔ Settled q := by
  have counts : s.counts = q.counters := by simp [Module.counts, pool]
  constructor
  · intro fetches
    constructor
    · intro none
      have idle := @fetch_idle s 0 (by rw [counts, none])
      have served := fetches.served q 0 pool
      simpa [idle] using served
    · intro empty
      by_contra some
      rcases @fetch_moves s 0 (by rwa [counts]) with ⟨ret, positive, moves⟩
      have nothing := fetches.otherwise q 0 pool empty
      simp only [moves] at nothing
      omega
  · intro settled
    refine ⟨?_, ?_⟩
    · rintro q' remaining present
      obtain rfl : q = q' := Option.some.inj (pool.symm.trans present)
      by_cases none : q.counters.puttimes = 0
      · simp [@fetch_idle s remaining (by rw [counts, none]), settled.mp none]
      · have waiting : Waiting q := not_not.mp fun empty => none (settled.mpr empty)
        rcases @fetch_moves s remaining (by rwa [counts]) with ⟨ret, positive, moves⟩
        simp only [moves, positive, pool_handOver pool, waiting, true_and, iff_true]
        refine ⟨_, rfl, ?_⟩
        exact length_moved_pos (by norm_num) waiting
    · rintro q' remaining present empty
      obtain rfl : q = q' := Option.some.inj (pool.symm.trans present)
      simp [@fetch_idle s remaining (by rw [counts, settled.mpr empty])]

end Fetching

/-! ## Steps -/

section Steps

variable {s : Module} {q : IpQueue} {c : QueueData} {cpu : ℕ} {src : IpKeyInfo}

/-- A put at the CPU queues an index. -/
def Queues (q : IpQueue) (c : QueueData) : Prop :=
  (takeIdle q.m.elem c.idle).1.isSome ∧ c.ready.items.length < c.ready.size

instance (q : IpQueue) (c : QueueData) : Decidable (Queues q c) :=
  inferInstanceAs (Decidable (_ ∧ _))

/-- A put queues an index or finds one queued, and a delivery takes everything. The number of
puts does not wrap around. -/
def Harmless (s : Module) : QueueEvent → Prop
  | .put cpu _ => ∀ q, s.pool = some q → ∀ c, q.qptr[cpu]? = some c →
      q.counters.puttimes + 1 ≠ 0 ∧ (Waiting q ∨ Queues q c)
  | .fetch _ interrupted => ∀ q, s.pool = some q →
      (interrupted = true → ipsIdxArraySize / 2 < q.counters.puttimes.toNat) → FitsDelivery q
  | .recycle _ => True

theorem exists_mem_around {before after : List QueueData} :
    (∃ other ∈ before ++ c :: after, other.ready.items ≠ []) ↔
      c.ready.items ≠ [] ∨ ∃ other ∈ before ++ after, other.ready.items ≠ [] := by
  simp only [List.mem_append, List.mem_cons]
  constructor
  · rintro ⟨other, inBefore | rfl | inAfter, some⟩
    · exact Or.inr ⟨other, Or.inl inBefore, some⟩
    · exact Or.inl some
    · exact Or.inr ⟨other, Or.inr inAfter, some⟩
  · rintro (some | ⟨other, inBefore | inAfter, some⟩)
    · exact ⟨c, Or.inr (Or.inl rfl), some⟩
    · exact ⟨other, Or.inl inBefore, some⟩
    · exact ⟨other, Or.inr (Or.inr inAfter), some⟩

theorem waiting_put_iff (present : q.qptr[cpu]? = some c) :
    Waiting (ipQueuePut cpu src q) ↔ Waiting q ∨ Queues q c := by
  rcases split_of_getElem? present with ⟨before, after, queues, -, set⟩
  have old : Waiting q ↔
      c.ready.items ≠ [] ∨ ∃ other ∈ before ++ after, other.ready.items ≠ [] := by
    simp only [Waiting, queues]
    exact exists_mem_around
  have new : ∀ c', (∃ other ∈ q.qptr.set cpu c', other.ready.items ≠ []) ↔
      c'.ready.items ≠ [] ∨ ∃ other ∈ before ++ after, other.ready.items ≠ [] := by
    intro c'
    rw [set c']
    exact exists_mem_around
  simp only [old, Queues]
  simp only [Waiting, ipQueuePut, present]
  cases taken : (takeIdle q.m.elem c.idle).1 with
  | none => simp [new]
  | some i =>
      simp only [new, (updateAlarm_fields _).2.2.2, QueueData.putReady]
      by_cases room : c.ready.items.length < c.ready.size
      · simp [Kfifo.put, room]
      · simp [Kfifo.put, room]

theorem puttimes_put (present : q.qptr[cpu]? = some c) :
    (ipQueuePut cpu src q).counters.puttimes = q.counters.puttimes + 1 := by
  simp only [ipQueuePut, present]
  cases (takeIdle q.m.elem c.idle).1 with
  | none => rfl
  | some i =>
      dsimp only
      split <;> rfl

theorem recycleScan_kept (cpus : List QueueData) (i : ℕ) (counters : Counters) :
    ((recycleScan cpus i counters).2.2.map fun c => c.ready) = (cpus.map fun c => c.ready) ∧
      (recycleScan cpus i counters).2.1.puttimes = counters.puttimes := by
  induction cpus generalizing i counters with
  | nil => exact ⟨rfl, rfl⟩
  | cons c cpus ih =>
      rw [recycleScan]
      split
      · simp [ih]
      · simp [ih]

theorem recycleOne_kept (q : IpQueue) (i : ℕ) :
    ((recycleOne q i).2.qptr.map fun c => c.ready) = (q.qptr.map fun c => c.ready) ∧
      (recycleOne q i).2.counters.puttimes = q.counters.puttimes := by
  rw [recycleOne]
  split
  · exact ⟨rfl, rfl⟩
  · exact recycleScan_kept q.qptr i q.counters

theorem recycle_kept (idlist : List ℕ) (q : IpQueue) :
    ((ipQueueRecycle idlist q).2.qptr.map fun c => c.ready) = (q.qptr.map fun c => c.ready) ∧
      (ipQueueRecycle idlist q).2.counters.puttimes = q.counters.puttimes := by
  induction idlist generalizing q with
  | nil => exact ⟨rfl, rfl⟩
  | cons i idlist ih =>
      rcases recycleOne_kept q i with ⟨ready, puttimes⟩
      rcases ih (recycleOne q i).2 with ⟨rest, same⟩
      exact ⟨rest.trans ready, same.trans puttimes⟩

theorem waiting_iff_map : Waiting q ↔ ∃ r ∈ q.qptr.map fun c => c.ready, r.items ≠ [] := by
  simp [Waiting]

theorem settled_recycle_iff (idlist : List ℕ) :
    Settled (ipQueueRecycle idlist q).2 ↔ Settled q := by
  rcases recycle_kept idlist q with ⟨ready, puttimes⟩
  simp only [Settled, puttimes, waiting_iff_map, ready]

theorem settled_put_iff (settled : Settled q) (present : q.qptr[cpu]? = some c) :
    Settled (ipQueuePut cpu src q) ↔
      q.counters.puttimes + 1 ≠ 0 ∧ (Waiting q ∨ Queues q c) := by
  simp only [Settled, puttimes_put present, waiting_put_iff present]
  by_cases queued : Waiting q ∨ Queues q c
  · simp [queued]
  · -- nothing was queued, so that the put is the first one
    have none : q.counters.puttimes = 0 := settled.mpr fun waiting => queued (Or.inl waiting)
    simp [queued, none]

theorem settled_delivery_iff :
    Settled (ipQueueMove2dma { q with counters := { q.counters with puttimes := 0 } }) ↔
      FitsDelivery q := by
  have emptied : FitsDelivery q ↔ ∀ c ∈ (move2dmaLoop q.qptr 0 ipsIdxArraySize).2,
      c.ready.items = [] := fitting_iff_emptied
  rw [emptied]
  simp [Settled, Waiting, ipQueueMove2dma]

theorem fitsDelivery_of_empty (empty : ¬Waiting q) : FitsDelivery q := by
  apply fitting_of_empty
  simpa [Waiting] using empty

theorem isSome_queueStep (some : s.pool.isSome) (event : QueueEvent) :
    (queueStep s event).pool.isSome := by
  cases event with
  | put cpu src => simpa [queueStep] using some
  | recycle idlist => simpa [queueStep] using some
  | fetch remaining interrupted =>
      rcases Option.isSome_iff_exists.mp some with ⟨q, pool⟩
      have fetches := fetches_ipsFetch remaining interrupted s
      simp only [queueStep]
      generalize ipsFetch remaining interrupted s = result at fetches ⊢
      cases fetches with
      | woken many => simp [pool_handOver pool]
      | signalled few signal => exact some
      | late few quiet some => simp [pool_handOver pool]
      | idle quiet none => exact some

/-- From a state in which fetches serve what waits, exactly the harmless steps lead to one. -/
theorem fetchesWaiting_step (pool : s.pool = some q) (right : FetchesWaiting s)
    (event : QueueEvent) : FetchesWaiting (queueStep s event) ↔ Harmless s event := by
  have settled := (fetchesWaiting_iff pool).mp right
  have counts : s.counts = q.counters := by simp [Module.counts, pool]
  cases event with
  | put cpu src =>
      have next : (queueStep s (.put cpu src)).pool = some (ipQueuePut cpu src q) := by
        simp [queueStep, pool]
      rw [fetchesWaiting_iff next]
      cases present : q.qptr[cpu]? with
      | none =>
          -- there is no such CPU
          simpa [ipQueuePut, present, Harmless, pool] using settled
      | some c =>
          rw [settled_put_iff settled present]
          simp [Harmless, pool, present]
  | recycle idlist =>
      have next : (queueStep s (.recycle idlist)).pool = some (ipQueueRecycle idlist q).2 := by
        simp [queueStep, pool]
      rw [fetchesWaiting_iff next, settled_recycle_iff]
      simpa [Harmless] using settled
  | fetch remaining interrupted =>
      have fetches := fetches_ipsFetch remaining interrupted s
      simp only [queueStep, Harmless, pool, Option.some.injEq, forall_eq']
      generalize ipsFetch remaining interrupted s = result at fetches ⊢
      cases fetches with
      | woken many =>
          rw [fetchesWaiting_iff (pool_handOver pool), settled_delivery_iff]
          rw [counts] at many
          simp [many]
      | signalled few signal =>
          rw [counts] at few
          simp [right, signal, few.not_gt]
      | late few quiet some =>
          rw [fetchesWaiting_iff (pool_handOver pool), settled_delivery_iff]
          simp [quiet]
      | idle quiet none =>
          rw [counts] at none
          simp [right, quiet, fitsDelivery_of_empty (settled.mp none)]

theorem not_waiting_of_creates (created : Creates q) : ¬Waiting q := by
  rintro ⟨c, member, some⟩
  exact some ((fresh_of_creates created).2.1 c member).ready

/-- After every step a fetch serves what waits exactly when the puts are counted from zero on
and every step is harmless. -/
theorem never_strands_iff (created : Creates q) (pool : s.pool = some q)
    (events : List QueueEvent) :
    Always queueStep FetchesWaiting s events ↔
      q.counters.puttimes = 0 ∧ Meets queueStep Harmless s events := by
  have start : FetchesWaiting s ↔ q.counters.puttimes = 0 := by
    rw [fetchesWaiting_iff pool]
    simp [Settled, not_waiting_of_creates created]
  have runs : FetchesWaiting s →
      (Always queueStep FetchesWaiting s events ↔ Meets queueStep Harmless s events) := by
    intro right
    apply @always_iff_meets_of_invariant _ _ _ _ _ (fun s => s.pool.isSome = true) fun _ _ => True
    · intro s event some _ right
      rcases Option.isSome_iff_exists.mp some with ⟨q, pool⟩
      exact fetchesWaiting_step pool right event
    · intro s event some _ _
      exact isSome_queueStep some event
    · simp [pool]
    · exact right
    · exact meets_of_mem (fun _ _ _ => trivial) s
  constructor
  · intro always
    have right : FetchesWaiting s := first_of_always always
    exact ⟨start.mp right, (runs right).mp always⟩
  · rintro ⟨zero, harmless⟩
    exact (runs (start.mpr zero)).mpr harmless

end Steps

/-! ## Two runs -/

/-- A module whose pool was just created. -/
def configured (q : IpQueue) : Module :=
  ⟨Data.initial, some q, Counters.initial, true⟩

/-- Two puts are fetched, an index comes back, and one more is put. -/
def servedRun : List QueueEvent :=
  [.put 0 infoEc, .put 1 infoEc, .fetch 0 false, .recycle [0], .put 1 infoEc]

theorem harmless_servedRun : Meets queueStep Harmless (configured smallPool) servedRun := by
  refine ⟨?_, ?_, ?_, trivial, ?_, trivial⟩
  · rintro q ⟨⟩ c ⟨⟩
    exact ⟨by decide, Or.inr (by decide)⟩
  · rintro q ⟨⟩ c ⟨⟩
    exact ⟨by decide, Or.inr (by decide)⟩
  · rintro q ⟨⟩ -
    decide
  · rintro q ⟨⟩ c ⟨⟩
    exact ⟨by decide, Or.inr (by decide)⟩

theorem servedRun_never_strands :
    Always queueStep FetchesWaiting (configured smallPool) servedRun :=
  (never_strands_iff creates_smallPool rfl servedRun).mpr ⟨by decide, harmless_servedRun⟩

/-- Seventeen CPUs with two indices each. -/
def manyCreate : Int × Option IpQueue :=
  ipQueueCreate [] 2 10 true (List.replicate 17 ⟨true, some 0, some 0⟩) true
    (fun _ => ⟨infoEc, 0, .free⟩) ⟨0, 0, 0, 0, 0, 0, 0⟩

/-- The pool of the many CPUs. -/
def manyPool : IpQueue :=
  manyCreate.2.get (by decide)

/-- One packet at each CPU and a fetch. -/
def manyRun : List QueueEvent :=
  (List.range 17).map (fun cpu => .put cpu infoEc) ++ [.fetch 0 false]

theorem isSome_manyRun : (run queueStep (configured manyPool) manyRun).pool.isSome := by
  decide

/-- The fetch hands sixteen indices over and leaves one behind, and the next one does not look
for it. -/
theorem manyRun_strands :
    Creates manyPool ∧ ¬Always queueStep FetchesWaiting (configured manyPool) manyRun := by
  refine ⟨⟨_, _, _, _, _, _, _, _, (Option.some_get _).symm⟩, ?_⟩
  intro always
  have right := (last_of_always always).served _ 0 (Option.some_get isSome_manyRun).symm
  have served := right.mpr (by decide)
  exact absurd served.1 (by decide)

end Linguafranca.Ipshark2
