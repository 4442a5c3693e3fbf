import Linguafranca.Ipshark2.AreaCustody

/-!
# Every index of the shared area is in one place

A thread may rely on what it relied on whatever the others do, and on what it needs next after
its own step, so that the invariant is kept in every order of the steps. Between the requests
it is `PoolInv`.
-/

namespace Linguafranca.Ipshark2

open Run Interleaving

section Step

variable {s : Areas} {t u cpu i : ℕ} {a a' : SharedArea} {pc pc' : AreaPc} {c : QueueData}

/-! ### What the threads rely on -/

theorem AreaInv.relies_other (inv : AreaInv s) (other : u ≠ t)
    (took : AreaTook s.shared (s.pc t) a' pc') : (s.pc u).Relies a'.pool := by
  apply (inv.relies u).frame (shape_of_took took)
  · intro i touched
    apply elem_of_took took (inv.relies t)
    exact inv.touches_apart (Ne.symm other) touched
  · intro client
    apply array_of_took took
    intro mover
    exact other (((inv.one u).mp client).trans ((inv.one t).mp mover).symm)

theorem AreaInv.home_of_pop (inv : AreaInv s) {left : Kfifo ℕ}
    (present : s.shared.pool.qptr[cpu]? = some c) (taken : c.idle.get = some (i, left)) :
    Home s.shared.pool cpu i ∧ (s.shared.pool.m.elem i).state ≠ .inuse := by
  have queue := inv.queues c (List.mem_of_getElem? present)
  have member : i ∈ c.idle.items := by simp [(Kfifo.get_eq_some taken).1]
  exact ⟨⟨c, present, queue.home i (List.mem_append_left _ member)⟩, queue.idleFree i member⟩

theorem AreaInv.keeps_nodup (inv : AreaInv s) (t : ℕ) : (s.pc t).keeps.Nodup := by
  by_cases client : (s.pc t).IsClient
  · rw [(inv.one t).mp client]
    exact (List.nodup_append.mp inv.custody.nodup).2.1
  · rw [keeps_of_ne_client client]
    exact List.nodup_nil

@[simp]
theorem elem_setElem_self (a : SharedArea) (i : ℕ) (wrap : IpKeyInfoWrap) :
    (a.setElem i wrap).pool.m.elem i = wrap := by
  simp [SharedArea.setElem]

theorem elem_setElem_of_ne {j : ℕ} (a : SharedArea) (wrap : IpKeyInfoWrap) (other : j ≠ i) :
    (a.setElem i wrap).pool.m.elem j = a.pool.m.elem j := by
  simp [SharedArea.setElem, other]

theorem inRange_of_home {q : IpQueue} (home : Home q cpu i) (present : q.qptr[cpu]? = some c) :
    c.InRange i := by
  rcases home with ⟨c', present', inside⟩
  rw [present, Option.some.injEq] at present'
  rwa [present']

/-- What a fetch copied from a CPU is in use, as the ready fifo had it. -/
theorem AreaInv.relies_moves (inv : AreaInv s) {hand copied : List ℕ} {num : Int}
    {task : ClientTask} (here : s.pc t = .client hand (.moving cpu copied num))
    (present : s.shared.pool.qptr[cpu]? = some c)
    (onward : MovesOn cpu (copied ++ (c.ready.out num.toNat).1)
      (num - (copied ++ (c.ready.out num.toNat).1).length) task) :
    task.Relies ((s.shared.setQueue cpu { c with ready := (c.ready.out num.toNat).2 }).setIdxArray
      (copied ++ (c.ready.out num.toNat).1)).pool := by
  have relies := inv.relies t
  rw [here] at relies
  rcases relies.2 with ⟨⟨before, _⟩, bound⟩
  have queue := inv.queues c (List.mem_of_getElem? present)
  have taken : Copied ((s.shared.setQueue cpu
      { c with ready := (c.ready.out num.toNat).2 }).setIdxArray
        (copied ++ (c.ready.out num.toNat).1)).pool (copied ++ (c.ready.out num.toNat).1) := by
    constructor
    · intro j member
      rcases List.mem_append.mp member with old | new
      · exact before j old
      · exact queue.readyInuse j (List.mem_of_mem_take new)
    · exact List.take_left
  cases onward with
  | full => exact taken
  | next more =>
      refine ⟨taken, ?_⟩
      omega

theorem AreaInv.relies_looks (inv : AreaInv s) {hand : List ℕ} {task task' : ClientTask}
    (here : s.pc t = .client hand task) (looks : Looks s.shared.pool task task') :
    task'.Relies s.shared.pool := by
  have relies := inv.relies t
  rw [here] at relies
  have mine := relies.2
  cases looks with
  | fetches => exact ⟨⟨fun i member => absurd member List.not_mem_nil, rfl⟩, le_rfl⟩
  | skips => exact mine
  | ends => exact mine.1
  | finished => trivial
  | ignores addr left => exact fun i member => mine i (List.mem_cons_of_mem addr member)
  | begins addr left busy =>
      refine ⟨busy, ?_, fun i member => mine i (List.mem_cons_of_mem addr member)⟩
      exact fun k below => absurd below (Nat.not_lt_zero k)
  | scanned addr handled cpu left past =>
      cases handled with
      | false => exact mine.2.2
      | true => exact mine.2
  | passes addr handled cpu left c present outside =>
      cases handled with
      | true =>
          rcases mine with ⟨⟨k, below, home⟩, later⟩
          exact ⟨⟨k, below.trans (Nat.lt_succ_self cpu), home⟩, later⟩
      | false =>
          rcases mine with ⟨busy, earlier, later⟩
          refine ⟨busy, ?_, later⟩
          intro k below home
          rcases Nat.lt_succ_iff_lt_or_eq.mp below with before | same
          · exact earlier k before home
          · rw [same] at home
            exact outside (inRange_of_home home present)
  | hits addr handled cpu left c present inside =>
      cases handled with
      | true =>
          rcases mine with ⟨⟨k, below, home⟩, later⟩
          exact absurd ⟨c, present, inside⟩ (not_home_zero inv.ranges home below)
      | false =>
          rcases mine with ⟨busy, earlier, later⟩
          refine ⟨rfl, ⟨c, present, inside⟩, ?_⟩
          intro i member
          rcases List.mem_cons.mp member with same | rest
          · rw [same]
            exact busy
          · exact later i rest

theorem AreaInv.relies_writes (inv : AreaInv s) {src : IpKeyInfo} {wrap : IpKeyInfoWrap}
    (writes : Writes s.shared.pool.m.elem cpu src i wrap (s.pc t) pc') :
    pc'.Relies (s.shared.setElem i wrap).pool := by
  have relies := inv.relies t
  generalize s.pc t = pc at writes relies
  cases writes with
  | half torn => exact ⟨relies.1, by rw [elem_setElem_self]; exact relies.2⟩
  | whole => exact ⟨relies.1, by rw [elem_setElem_self]; exact ⟨relies.2, rfl⟩⟩
  | times => exact ⟨relies.1, by rw [elem_setElem_self]; exact relies.2⟩
  | state => exact ⟨relies.1, by rw [elem_setElem_self]; exact ⟨rfl, relies.2.2⟩⟩

theorem AreaInv.relies_self (inv : AreaInv s)
    (honest : ∀ hand hand' idlist, s.pc t = .client hand .user →
      pc' = .client hand' (.taking idlist) → idlist.Nodup ∧ ∀ i ∈ idlist, i ∈ hand)
    (took : AreaTook s.shared (s.pc t) a' pc') : pc'.Relies a'.pool := by
  have relies := inv.relies t
  have shape := shape_of_took took
  generalize here : s.pc t = pc at took relies
  cases took with
  | stays => exact relies
  | arrives | leaves | drops | alarms => trivial
  | enters cpu src free inside => exact inside
  | pops cpu src c i left present taken =>
      rcases inv.home_of_pop present taken with ⟨home, free⟩
      exact ⟨home.congr shape, free⟩
  | retries cpu src i busy => exact absurd busy relies.2
  | keeps cpu src i free => exact relies
  | writes cpu src i wrap writes =>
      rw [← here] at writes
      exact inv.relies_writes writes
  | queues cpu src i c present room => exact lt_length_of_home (relies.1.congr shape)
  | refuses cpu src i c present full =>
      have owned : (s.pc t).owns = some i := by
        rw [here]
        rfl
      have room := inv.room present (inRange_of_home relies.1 present) (inv.off_of_owns owned).1
      rw [room.2] at full
      exact absurd full (by simp)
  | putsBack => exact absurd relies id
  | looks hand looks => exact ⟨relies.1, inv.relies_looks here looks⟩
  | moves hand cpu copied num c present fits onward =>
      exact ⟨relies.1, inv.relies_moves here present onward⟩
  | publishes hand copied =>
      refine ⟨?_, trivial⟩
      have delivered : (s.shared.setIdxNum copied.length).pool.m.delivered = copied :=
        relies.2.2
      rw [delivered]
      intro i member
      rcases List.mem_append.mp member with old | new
      · exact relies.1 i old
      · exact relies.2.1 i new
  | frees hand idlist =>
      rcases honest hand _ idlist here rfl with ⟨-, held⟩
      refine ⟨fun i member => relies.1 i (List.diff_subset hand idlist member), ?_⟩
      exact fun i member => relies.1 i (held i member)
  | releases hand addr handled cpu left =>
      rcases relies with ⟨inHand, rfl, home, busy⟩
      have distinct := inv.keeps_nodup t
      rw [here] at distinct
      have apart := List.nodup_append.mp distinct
      have fresh := (List.nodup_cons.mp apart.2.1).1
      refine ⟨?_, rfl, home, ?_, ?_⟩
      · intro i member
        rw [elem_setElem_of_ne]
        · exact inHand i member
        · exact apart.2.2 i member addr List.mem_cons_self
      · rw [elem_setElem_self]
        simp
      · intro i member
        rw [elem_setElem_of_ne]
        · exact busy i (List.mem_cons_of_mem addr member)
        · intro same
          rw [same] at member
          exact fresh member
  | gives hand addr handled cpu left c present =>
      rcases relies with ⟨inHand, rfl, home, free, later⟩
      exact ⟨inHand, ⟨cpu, Nat.lt_succ_self cpu, home.congr shape⟩, later⟩

/-- The client gives back indices it holds, each once. -/
def GivesBack (s : Areas) (event : ℕ × AreaAct) : Prop :=
  ∀ hand idlist, s.pc event.1 = .client hand .user → event.2 = .free idlist →
    idlist.Nodup ∧ ∀ i ∈ idlist, i ∈ hand

theorem GivesBack.honest {act : AreaAct} (gives : GivesBack s (t, act)) (hand hand' idlist : List ℕ)
    (here : s.pc t = .client hand .user)
    (after : (areaAct s.shared (s.pc t) act).2 = .client hand' (.taking idlist)) :
    idlist.Nodup ∧ ∀ i ∈ idlist, i ∈ hand := by
  rw [here] at after
  cases act with
  | free other =>
      cases after
      exact gives hand _ here rfl
  | put src => exact absurd after (by simp [areaAct])
  | fetch => exact absurd after (by simp [areaAct])
  | next cpu torn => exact absurd after (by simp [areaAct, clientNext])

theorem AreaInv.step (inv : AreaInv s) (act : AreaAct) (gives : GivesBack s (t, act)) :
    AreaInv (areaStep s (t, act)) := by
  have took := took_areaAct (s.pc t) act (inv.usable t)
  have honest := gives.honest
  show AreaInv (s.move t _ _)
  refine ⟨inv.claims_step took, ?_, ?_, ?_, ?_, ?_⟩
  · intro u
    by_cases same : u = t
    · rw [same, pc_move_self, isClient_of_took took]
      exact inv.one t
    · rw [pc_move_of_ne same]
      exact inv.one u
  · rw [shared_move, total_of_took took]
    exact inv.ranges.congr (shape_of_took took)
  · exact inv.queues_step took
  · rw [shared_move, total_of_took took]
    exact inv.custody_step honest took
  · intro u
    by_cases same : u = t
    · rw [same, pc_move_self]
      exact inv.relies_self honest took
    · rw [pc_move_of_ne same]
      exact inv.relies_other same took

end Step

/-! ## Runs -/

section Runs

variable {q : IpQueue} {s : Areas} {events : List (ℕ × AreaAct)}

theorem PoolInv.custody {out : List ℕ} (inv : PoolInv q out) :
    Custody {i | i < q.m.ipKeyInfoTotalSize} (q.places ++ out) (fun _ => none)
      (fun _ => none) := by
  have parts := inv.partitioned
  have counted : ∀ i, (q.places ++ out).count i =
      (q.qptr.map fun c => c.idle.items.count i + c.ready.items.count i).sum + out.count i := by
    intro i
    simp only [IpQueue.places, List.count_append, List.count_flatMap, Function.comp_def]
  have below : ∀ i ∈ q.places ++ out, i < q.m.ipKeyInfoTotalSize := by
    intro i member
    apply parts.inside
    rcases List.mem_append.mp member with queued | held
    · rcases mem_places_iff.mp queued with ⟨c, here, queued⟩
      exact Or.inr ⟨c, here, parts.home c here i queued⟩
    · exact Or.inl held
  refine ⟨?_, below, by simp, by simp, by simp, ?_, by simp⟩
  · rw [List.nodup_iff_count_le_one]
    intro i
    by_cases member : i ∈ q.places ++ out
    · rw [counted, parts.once i (below i member)]
    · rw [List.count_eq_zero_of_not_mem member]
      exact Nat.zero_le 1
  · intro i inside
    left
    rw [← List.count_pos_iff, counted, parts.once i inside]
    exact Nat.one_pos

/-- A pool that was just created. -/
theorem areaInv_sharedArea (created : Creates q) : AreaInv (sharedArea q) := by
  have pool := poolInv_of_creates created
  have others : ∀ t, (sharedArea q).pc t = .client [] .user ∧ t = 0 ∨
      (sharedArea q).pc t = .resting ∧ t ≠ 0 := by
    intro t
    by_cases zero : t = 0
    · exact Or.inl ⟨if_pos zero, zero⟩
    · exact Or.inr ⟨if_neg zero, zero⟩
  have owns : (fun t => ((sharedArea q).pc t).owns) = fun _ => none := by
    funext t
    rcases others t with ⟨here, _⟩ | ⟨here, _⟩ <;> rw [here] <;> rfl
  refine ⟨⟨?_, ?_⟩, ?_, pool.ranges, ?_, ?_, ?_⟩
  · intro t k
    rcases others t with ⟨here, _⟩ | ⟨here, _⟩ <;> rw [here] <;> simp [AreaPc.cpu]
  · intro t t' k
    rcases others t with ⟨here, _⟩ | ⟨here, _⟩ <;> rw [here] <;> simp [AreaPc.cpu]
  · intro t
    rcases others t with ⟨here, zero⟩ | ⟨here, zero⟩ <;> rw [here]
    · exact iff_of_true trivial zero
    · exact iff_of_false id zero
  · intro c member
    have cpu := pool.cpus c member
    refine ⟨?_, cpu.idleFree, cpu.readyInuse, cpu.idleSize, cpu.readySize⟩
    intro i queued
    rcases List.mem_append.mp queued with idle | ready
    · exact cpu.idleHome i idle
    · exact cpu.readyHome i ready
  · rw [owns]
    exact pool.custody
  · intro t
    rcases others t with ⟨here, _⟩ | ⟨here, _⟩ <;> rw [here]
    · exact ⟨by simp, trivial⟩
    · trivial

theorem areaInv_run (created : Creates q)
    (gives : Meets areaStep GivesBack (sharedArea q) events) :
    AreaInv (run areaStep (sharedArea q) events) :=
  invariant (fun _ event inv given => inv.step event.2 given) (areaInv_sharedArea created) gives

/-- An index that is queued is queued at its CPU. -/
theorem AreaInv.queued_at (inv : AreaInv s) {c : QueueData} {i : ℕ}
    (member : c ∈ s.shared.pool.qptr) (inside : c.InRange i)
    (queued : i ∈ s.shared.pool.places) : i ∈ c.idle.items ∨ i ∈ c.ready.items := by
  rcases mem_places_iff.mp queued with ⟨c', member', queued⟩
  rcases List.getElem?_of_mem member with ⟨cpu, present⟩
  rcases List.getElem?_of_mem member' with ⟨other, present'⟩
  have home' : c'.InRange i := (inv.queues c' member').home i (List.mem_append.mpr queued)
  have same := Home.unique inv.ranges ⟨c, present, inside⟩ ⟨c', present', home'⟩
  rw [← same, present, Option.some.injEq] at present'
  rwa [present']

theorem AreaInv.lt_of_inRange (inv : AreaInv s) {c : QueueData} {i : ℕ}
    (member : c ∈ s.shared.pool.qptr) (inside : c.InRange i) :
    i < s.shared.pool.m.ipKeyInfoTotalSize :=
  lt_of_lt_of_le inside.2 (inv.ranges.bounds.2 c member).2.2

/-- A put has an index of the CPU it runs on. -/
theorem AreaInv.home_of_owns (inv : AreaInv s) {t i : ℕ} (owned : (s.pc t).owns = some i) :
    ∃ cpu, (s.pc t).cpu = some cpu ∧ Home s.shared.pool cpu i := by
  have relies := inv.relies t
  generalize s.pc t = pc at owned relies
  cases pc with
  | popped cpu src s | copying cpu src s half | counting cpu src s | marking cpu src s
  | queueing cpu src s =>
      cases owned
      exact ⟨cpu, rfl, relies.1⟩
  | refused => exact absurd relies id
  | _ => exact absurd owned (by simp [AreaPc.owns])

/-- Between the requests and the puts the pool is as if they had been made one at a time. -/
theorem AreaInv.poolInv {hand : List ℕ} (inv : AreaInv s) (client : s.pc 0 = .client hand .user)
    (rest : ∀ t ≠ 0, s.pc t = .resting) : PoolInv s.shared.pool hand := by
  have keeps : (s.pc 0).keeps = hand := by
    rw [client]
    exact List.append_nil hand
  have owns : ∀ t, (s.pc t).owns = none := by
    intro t
    by_cases zero : t = 0
    · rw [zero, client]
      rfl
    · rw [rest t zero]
      rfl
  have custody := inv.custody
  rw [keeps] at custody
  refine ⟨inv.ranges, ?_, ?_⟩
  · intro c member
    have queue := inv.queues c member
    refine ⟨?_, fun i idle => queue.home i (List.mem_append_left _ idle),
      fun i ready => queue.home i (List.mem_append_right _ ready), queue.idleFree,
      queue.readyInuse, queue.idleSize, queue.readySize⟩
    intro i inside
    rcases List.getElem?_of_mem member with ⟨cpu, present⟩
    rcases exists_places present with ⟨rest, placed, -⟩
    have once := List.nodup_iff_count_le_one.mp custody.nodup i
    rw [List.count_append, placed.count_eq, List.count_append, List.count_append] at once
    have somewhere : 0 < c.idle.items.count i + c.ready.items.count i + hand.count i := by
      rcases custody.noLeak i (inv.lt_of_inRange member inside) with placed | ⟨t, owned⟩
      · rcases List.mem_append.mp placed with queued | held
        · rcases inv.queued_at member inside queued with idle | ready
          · have positive := List.count_pos_iff.mpr idle
            omega
          · have positive := List.count_pos_iff.mpr ready
            omega
        · have positive := List.count_pos_iff.mpr held
          omega
      · rw [owns t] at owned
        exact absurd owned (by simp)
    omega
  · intro i held
    have relies := inv.relies 0
    rw [client] at relies
    exact ⟨custody.kept i (List.mem_append_right _ held), relies.1 i held⟩

/-- However the steps of the puts, the fetches and the recycles interleave, each index is in one
place: in one fifo, with the client or with one put, whose element nobody else touches. No
element outside the area is used, the ready fifo refuses no index, and between the requests
the pool is as if they had been made one at a time. -/
theorem area_partitioned (q : IpQueue) (events : List (ℕ × AreaAct)) (created : Creates q)
    (gives : Meets areaStep GivesBack (sharedArea q) events) :
    (∀ t, (run areaStep (sharedArea q) events).pc t ≠ .fault) ∧
    (∀ t cpu i, (run areaStep (sharedArea q) events).pc t ≠ .refused cpu i) ∧
    Custody {i | i < (run areaStep (sharedArea q) events).shared.pool.m.ipKeyInfoTotalSize}
      ((run areaStep (sharedArea q) events).shared.pool.places ++
        ((run areaStep (sharedArea q) events).pc 0).keeps)
      (fun t => ((run areaStep (sharedArea q) events).pc t).owns) (fun _ => none) ∧
    ∀ hand, (run areaStep (sharedArea q) events).pc 0 = .client hand .user →
      (∀ t ≠ 0, (run areaStep (sharedArea q) events).pc t = .resting) →
      PoolInv (run areaStep (sharedArea q) events).shared.pool hand := by
  have inv := areaInv_run created gives
  refine ⟨?_, ?_, inv.custody, fun hand client rest => inv.poolInv client rest⟩
  · intro t faulted
    have relies := inv.relies t
    rw [faulted] at relies
    exact relies
  · intro t cpu i refused
    have relies := inv.relies t
    rw [refused] at relies
    exact relies

theorem meets_of_no_free (start : Areas)
    (none : ∀ event ∈ events, ∀ idlist, event.2 ≠ .free idlist) :
    Meets areaStep GivesBack start events := by
  apply meets_of_mem
  intro event member state hand idlist _ frees
  exact absurd frees (none event member idlist)

/-- All steps of a put on a CPU where it finds an index. -/
def putOn (t cpu : ℕ) (src : IpKeyInfo) : List (ℕ × AreaAct) :=
  (t, .put src) :: List.replicate 10 (t, .next cpu infoEc)

theorem putOn_no_free {t cpu : ℕ} {src : IpKeyInfo} {event : ℕ × AreaAct}
    (member : event ∈ putOn t cpu src) (idlist : List ℕ) : event.2 ≠ .free idlist := by
  simp only [putOn, List.mem_cons, List.mem_replicate] at member
  rcases member with rfl | ⟨-, rfl⟩ <;> simp

/-- A thread goes on for a number of steps on one CPU. -/
def turns (t count cpu : ℕ) : List (ℕ × AreaAct) :=
  List.replicate count (t, .next cpu infoEc)

/-- Two packets are put on two CPUs while the client fetches. It takes index 0 when the record
of the other packet is half written, and is done when that packet has queued index 3. -/
def putAndFetch : List (ℕ × AreaAct) :=
  [(1, .put { infoEc with totallen := 60 }), (2, .put infoEc)] ++ turns 1 3 0 ++ turns 2 4 1 ++
    turns 1 5 0 ++ [(0, .fetch)] ++ turns 0 1 0 ++ turns 2 3 1 ++ turns 0 1 0 ++ turns 2 1 1 ++
    turns 1 2 0 ++ turns 0 2 0

/-- The client gives the index back while the second packet leaves. -/
def putAndGiveBack : List (ℕ × AreaAct) :=
  putAndFetch ++ (0, .free [0]) :: (turns 0 2 0 ++ turns 2 2 1 ++ turns 0 5 0)

theorem turns_no_free {t count cpu : ℕ} {event : ℕ × AreaAct}
    (member : event ∈ turns t count cpu) (idlist : List ℕ) : event.2 ≠ .free idlist := by
  rw [(List.mem_replicate.mp member).2]
  simp

theorem putAndGiveBack_gives : Meets areaStep GivesBack (sharedArea smallPool) putAndGiveBack := by
  have before : ∀ event ∈ putAndFetch, ∀ idlist, event.2 ≠ .free idlist := by
    intro event member
    simp only [putAndFetch, List.mem_append, List.mem_cons, List.not_mem_nil, or_false] at member
    rcases member with (((((((((((rfl | rfl) | turn) | turn) | turn) | rfl) | turn) | turn) |
      turn) | turn) | turn) | turn)
    all_goals first | exact turns_no_free turn | simp
  refine (meets_append _ _ _).mpr ⟨meets_of_no_free _ before, ?_, ?_⟩
  · intro hand idlist here frees
    have fetched : (run areaStep (sharedArea smallPool) putAndFetch).pc 0 = .client [0] .user := rfl
    rw [fetched] at here
    cases here
    cases frees
    decide
  · apply meets_of_no_free
    intro event member
    simp only [List.mem_append] at member
    rcases member with (turn | turn) | turn
    all_goals exact turns_no_free turn

theorem area_partitioned_for_putAndGiveBack :
    Custody {i | i < (run areaStep (sharedArea smallPool)
        putAndGiveBack).shared.pool.m.ipKeyInfoTotalSize}
      ((run areaStep (sharedArea smallPool) putAndGiveBack).shared.pool.places ++
        ((run areaStep (sharedArea smallPool) putAndGiveBack).pc 0).keeps)
      (fun t => ((run areaStep (sharedArea smallPool) putAndGiveBack).pc t).owns)
      (fun _ => none) :=
  (area_partitioned smallPool putAndGiveBack creates_smallPool putAndGiveBack_gives).2.2.1

/-- A packet is dropped only when every index of its CPU is ready or with the client. -/
theorem drops_only_when_full (q : IpQueue) (events : List (ℕ × AreaAct)) (created : Creates q)
    (gives : Meets areaStep GivesBack (sharedArea q) events) (t cpu : ℕ) (src : IpKeyInfo)
    (c : QueueData) (popping : (run areaStep (sharedArea q) events).pc t = .popping cpu src)
    (present : (run areaStep (sharedArea q) events).shared.pool.qptr[cpu]? = some c)
    (empty : c.idle.items = []) :
    ∀ i, c.InRange i → i ∈ c.ready.items ∨
      i ∈ ((run areaStep (sharedArea q) events).pc 0).keeps := by
  have inv := areaInv_run created gives
  intro i inside
  have member := List.mem_of_getElem? present
  rcases inv.custody.noLeak i (inv.lt_of_inRange member inside) with placed | ⟨u, owned⟩
  · rcases List.mem_append.mp placed with queued | held
    · left
      have here := inv.queued_at member inside queued
      rw [empty] at here
      exact here.resolve_left List.not_mem_nil
    · exact Or.inr held
  · -- A put that has an index of the CPU would have the CPU too.
    rcases inv.home_of_owns owned with ⟨k, cpu', home⟩
    rw [Home.unique inv.ranges home ⟨c, present, inside⟩] at cpu'
    have same := inv.claims.once u t cpu cpu' (by rw [popping]; rfl)
    rw [same, popping] at owned
    exact absurd owned (by simp [AreaPc.owns])

/-- Two packets take the two indices of CPU 1, and a third comes. -/
def threePuts : List (ℕ × AreaAct) :=
  putOn 1 1 infoEc ++ putOn 2 1 infoEc ++ [(3, .put infoEc), (3, .next 1 infoEc)]

theorem threePuts_gives : Meets areaStep GivesBack (sharedArea smallPool) threePuts := by
  apply meets_of_no_free
  intro event member
  simp only [threePuts, List.mem_append, List.mem_cons, List.not_mem_nil, or_false] at member
  rcases member with (first | second) | rfl | rfl
  · exact putOn_no_free first
  · exact putOn_no_free second
  · simp
  · simp

theorem drops_only_when_full_for_threePuts :
    3 ∈ ((run areaStep (sharedArea smallPool) threePuts).shared.pool.qptr.get
        ⟨1, by decide⟩).ready.items ∨
      3 ∈ ((run areaStep (sharedArea smallPool) threePuts).pc 0).keeps :=
  drops_only_when_full smallPool threePuts creates_smallPool threePuts_gives 3 1 infoEc _ rfl rfl
    rfl 3 ⟨by decide, by decide⟩

end Runs

end Linguafranca.Ipshark2
