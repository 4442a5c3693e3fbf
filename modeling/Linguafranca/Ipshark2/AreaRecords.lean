import Linguafranca.Ipshark2.AreaPlaces

/-!
# What the client reads in the shared area

A record takes four steps to be written and is read whenever the client likes. The ledger of
the pool is kept beside the steps: a record is accepted when its index becomes ready, and
handed over when `kfifo_out` takes the index. In each order of the steps the indices that
are ready have the accepted records that were not handed over, in order, and while the client
holds an index its element has the record that was accepted with it, whole.
-/

namespace Linguafranca.Ipshark2

open Run Interleaving

/-- What a step of a thread adds to the ledger. -/
def areaLedger (pc pc' : AreaPc) (ledger : Ledger) : Ledger :=
  match pc, pc' with
  | .queueing cpu src _, .alarming _ =>
      { ledger with
        accepted := Function.update ledger.accepted cpu (ledger.accepted cpu ++ [src]) }
  | .client _ (.moving cpu copied _), .client _ (.moving _ copied' _)
  | .client _ (.moving cpu copied _), .client _ (.moved copied') =>
      (copied'.drop copied.length).foldl (Ledger.deliver fun _ => cpu) ledger
  | .client _ .user, .client _ (.taking idlist) =>
      { ledger with held := ledger.held.filter fun d => d.idx ∉ idlist }
  | _, _ => ledger

/-- The ledger after a step. -/
def areaLedgerStep (s : Areas) (event : ℕ × AreaAct) (ledger : Ledger) : Ledger :=
  areaLedger (s.pc event.1) ((areaStep s event).pc event.1) ledger

/-- The indices whose records the client may read. -/
def AreaPc.holds : AreaPc → List ℕ
  | client hand (.moving _ copied _) | client hand (.moved copied) => hand ++ copied
  | client hand _ => hand
  | _ => []

/-- The pool has the accepted records that the ledger says. -/
structure Carries (q : IpQueue) (ledger : Ledger) : Prop where
  bounded : ∀ cpu, ledger.delivered cpu ≤ (ledger.accepted cpu).length
  queued : ∀ cpu c, q.qptr[cpu]? = some c →
    (ledger.accepted cpu).drop (ledger.delivered cpu) = q.records c.ready.items
  read : ∀ d ∈ ledger.held, (ledger.accepted d.cpu)[d.seq]? = some (q.m.elem d.idx).info

section Carries

variable {q q' : IpQueue} {ledger : Ledger} {cpu i : ℕ} {c c' : QueueData}

/-- The ready fifos and the records in them and with the client are as before. -/
theorem Carries.frame (carries : Carries q ledger)
    (fifos : ∀ (cpu : ℕ) (c' : QueueData), q'.qptr[cpu]? = some c' →
      ∃ c : QueueData, q.qptr[cpu]? = some c ∧ c'.ready.items = c.ready.items)
    (info : ∀ i ∈ q.places ++ ledger.outstanding, (q'.m.elem i).info = (q.m.elem i).info) :
    Carries q' ledger := by
  refine ⟨carries.bounded, ?_, ?_⟩
  · intro cpu c' present'
    rcases fifos cpu c' present' with ⟨c, present, ready⟩
    rw [carries.queued cpu c present, ready]
    symm
    apply records_congr
    intro i member
    apply info i
    apply List.mem_append_left
    exact mem_places_iff.mpr ⟨c, List.mem_of_getElem? present, Or.inr member⟩
  · intro d member
    rw [info d.idx (List.mem_append_right _ (List.mem_map_of_mem member))]
    exact carries.read d member

theorem fifos_set (present : q.qptr[cpu]? = some c) (ready : c'.ready.items = c.ready.items) :
    ∀ (k : ℕ) (found : QueueData), (q.qptr.set cpu c')[k]? = some found →
      ∃ old : QueueData, q.qptr[k]? = some old ∧ found.ready.items = old.ready.items := by
  intro k found here
  rw [List.getElem?_set] at here
  split at here
  · next same =>
      rw [← same]
      split at here
      · cases here
        exact ⟨c, present, ready⟩
      · exact absurd here (by simp)
  · exact ⟨found, here, rfl⟩

theorem queued_set_of_ne (carries : Carries q ledger) {k : ℕ} {found : QueueData}
    (here : (q.qptr.set cpu c')[k]? = some found) (other : k ≠ cpu) :
    (ledger.accepted k).drop (ledger.delivered k) = q.records found.ready.items := by
  rw [List.getElem?_set_ne (Ne.symm other)] at here
  exact carries.queued k found here

/-- A filled index becomes ready. -/
theorem Carries.accept (carries : Carries q ledger) (c' : QueueData)
    (present : q.qptr[cpu]? = some c) (ready : c'.ready.items = c.ready.items ++ [i]) :
    Carries { q with qptr := q.qptr.set cpu c' }
      { ledger with
        accepted := Function.update ledger.accepted cpu
          (ledger.accepted cpu ++ [(q.m.elem i).info]) } := by
  have inside := (List.getElem?_eq_some_iff.mp present).1
  refine ⟨?_, ?_, ?_⟩
  · intro k
    have bound := carries.bounded k
    by_cases same : k = cpu
    · subst same
      simp only [Function.update_self, List.length_append, List.length_singleton]
      omega
    · simpa only [Function.update_of_ne same] using bound
  · intro k found here
    by_cases same : k = cpu
    · subst same
      rw [List.getElem?_set_self inside, Option.some.injEq] at here
      subst here
      simp only [Function.update_self]
      rw [List.drop_append_of_le_length (carries.bounded k), carries.queued k c present, ready]
      exact (records_append q c.ready.items [i]).symm
    · simp only [Function.update_of_ne same]
      exact queued_set_of_ne carries here same
  · intro d member
    have read := carries.read d member
    by_cases same : d.cpu = cpu
    · simp only [same, Function.update_self]
      rw [same] at read
      rw [List.getElem?_append_left (List.getElem?_eq_some_iff.mp read).1]
      exact read
    · simpa only [Function.update_of_ne same] using read

/-- The oldest ready indices of a CPU are handed over. -/
theorem Carries.deliver (carries : Carries q ledger) (c' : QueueData)
    (present : q.qptr[cpu]? = some c) {moved : List ℕ}
    (ready : c.ready.items = moved ++ c'.ready.items) :
    Carries { q with qptr := q.qptr.set cpu c' }
      (moved.foldl (Ledger.deliver fun _ => cpu) ledger) := by
  have inside := (List.getElem?_eq_some_iff.mp present).1
  have old := carries.queued cpu c present
  rw [ready, records_append] at old
  have length : moved.length ≤ (ledger.accepted cpu).length - ledger.delivered cpu := by
    have lengths := congrArg List.length old
    simp only [IpQueue.records, List.length_drop, List.length_append, List.length_map] at lengths
    omega
  rw [foldl_deliver (fun _ _ => rfl)]
  refine ⟨?_, ?_, ?_⟩
  · intro k
    have bound := carries.bounded k
    by_cases same : k = cpu
    · subst same
      simp only [Function.update_self]
      omega
    · simpa only [Function.update_of_ne same] using bound
  · intro k found here
    by_cases same : k = cpu
    · subst same
      rw [List.getElem?_set_self inside, Option.some.injEq] at here
      subst here
      simp only [Function.update_self]
      rw [← List.drop_drop, old, List.drop_left' (by simp [IpQueue.records])]
      rfl
    · simp only [Function.update_of_ne same]
      exact queued_set_of_ne carries here same
  · intro d member
    rcases List.mem_append.mp member with earlier | new
    · exact carries.read d earlier
    · rcases List.mem_map.mp new with ⟨⟨i, seq⟩, numbered, rfl⟩
      rcases List.mk_mem_zipIdx_iff_le_and_getElem?_sub.mp numbered with ⟨above, position⟩
      have entry := congrArg (fun records => records[seq - ledger.delivered cpu]?) old
      simp only [List.getElem?_drop, Nat.add_sub_cancel' above] at entry
      rw [entry, List.getElem?_append_left]
      · simp [IpQueue.records, position]
      · simpa [IpQueue.records] using (List.getElem?_eq_some_iff.mp position).1

end Carries

/-- The records are in the area as the ledger says, and the client holds what is outstanding. -/
structure AreaRecords (s : Areas) (ledger : Ledger) : Prop where
  carries : Carries s.shared.pool ledger
  outstanding : ledger.outstanding = (s.pc 0).holds

section Step

variable {s : Areas} {ledger : Ledger} {t cpu i : ℕ} {a' : SharedArea} {pc' : AreaPc}

theorem outstanding_deliver (moved : List ℕ) (cpu : ℕ) (ledger : Ledger) :
    (moved.foldl (Ledger.deliver fun _ => cpu) ledger).outstanding =
      ledger.outstanding ++ moved := by
  rw [foldl_deliver (fun _ _ => rfl)]
  simp [Ledger.outstanding, Function.comp_def]

theorem holds_subset_keeps (pc : AreaPc) : pc.holds ⊆ pc.keeps := by
  intro i member
  cases pc with
  | client hand task =>
      cases task with
      | moving cpu copied num | moved copied => exact member
      | _ => exact List.mem_append_left _ member
  | _ => exact member

/-- An element that is neither queued nor with the client is written. -/
theorem AreaRecords.carries_elem (records : AreaRecords s ledger)
    (off : i ∉ s.shared.pool.places) (unheld : i ∉ (s.pc 0).keeps) (wrap : IpKeyInfoWrap) :
    Carries (s.shared.setElem i wrap).pool ledger := by
  refine records.carries.frame (fun k c here => ⟨c, here, rfl⟩) ?_
  intro j member
  rw [elem_setElem_of_ne]
  intro same
  rw [same] at member
  rcases List.mem_append.mp member with queued | held
  · exact off queued
  · rw [records.outstanding] at held
    exact unheld (holds_subset_keeps _ held)

theorem AreaRecords.put {ledger' : Ledger} (records : AreaRecords s ledger) (inv : AreaInv s)
    (other : ¬(s.pc t).IsClient) (carries : Carries a'.pool ledger')
    (outstanding : ledger'.outstanding = ledger.outstanding) :
    AreaRecords (s.move t a' pc') ledger' := by
  refine ⟨carries, ?_⟩
  rw [outstanding, pc_move_of_ne (Ne.symm (inv.ne_zero other))]
  exact records.outstanding

theorem AreaInv.records_client {ledger' : Ledger} (inv : AreaInv s) (client : (s.pc t).IsClient)
    (carries : Carries a'.pool ledger') (outstanding : ledger'.outstanding = pc'.holds) :
    AreaRecords (s.move t a' pc') ledger' := by
  refine ⟨carries, ?_⟩
  rw [← (inv.one t).mp client, pc_move_self]
  exact outstanding

theorem areaLedger_looks {q : IpQueue} {hand : List ℕ} {task task' : ClientTask}
    (ledger : Ledger) (looks : Looks q task task') :
    areaLedger (.client hand task) (.client hand task') ledger = ledger ∧
      (AreaPc.client hand task').holds = (AreaPc.client hand task).holds := by
  cases looks with
  | skips | ends => simp [areaLedger, AreaPc.holds]
  | fetches => simp [areaLedger, AreaPc.holds]
  | _ => exact ⟨rfl, rfl⟩

theorem AreaRecords.step (records : AreaRecords s ledger) (inv : AreaInv s)
    (honest : ∀ hand hand' idlist, s.pc t = .client hand .user →
      pc' = .client hand' (.taking idlist) → idlist.Nodup ∧ ∀ i ∈ idlist, i ∈ hand)
    (took : AreaTook s.shared (s.pc t) a' pc') :
    AreaRecords (s.move t a' pc') (areaLedger (s.pc t) pc' ledger) := by
  have relies := inv.relies t
  have outstanding := records.outstanding
  generalize here : s.pc t = pc at took relies
  have put : ¬pc.IsClient → ¬(s.pc t).IsClient := by
    rw [here]
    exact id
  have client : pc.IsClient → (s.pc t).IsClient := by
    rw [here]
    exact id
  have mine : pc.IsClient → ledger.outstanding = pc.holds := by
    intro kind
    rw [outstanding, ← (inv.one t).mp (client kind), here]
  cases took with
  | pops cpu src c i left present taken =>
      exact records.put inv (put id) (records.carries.frame (fifos_set present rfl) fun _ _ => rfl)
        rfl
  | queues cpu src i c present room =>
      have carried := records.carries.accept { c with ready := (c.ready.put i).2 } present
        (items_put_of_room room)
      rw [relies.2.2] at carried
      exact records.put inv (put id) carried rfl
  | putsBack => exact absurd relies id
  | alarms cpu c present =>
      rcases updateAlarm_fields c with ⟨-, -, -, ready⟩
      refine records.put inv (put id) (records.carries.frame ?_ fun _ _ => rfl) rfl
      exact fifos_set present (by rw [ready])
  | writes cpu src i wrap writes =>
      have owned : (s.pc t).owns = some i := by
        rw [here]
        cases writes <;> rfl
      rcases inv.off_of_owns owned with ⟨off, unheld⟩
      have carried := records.carries_elem off (unheld 0) wrap
      cases writes <;> exact records.put inv (put id) carried rfl
  | looks hand looks =>
      rcases areaLedger_looks ledger looks with ⟨same, holds⟩
      rw [same]
      exact inv.records_client (client trivial) records.carries ((mine trivial).trans holds.symm)
  | moves hand cpu copied num c present fits onward =>
      have delivered := records.carries.deliver { c with ready := (c.ready.out num.toNat).2 }
        present (c.ready.out_append num.toNat).symm
      have carried : Carries ((s.shared.setQueue cpu
          { c with ready := (c.ready.out num.toNat).2 }).setIdxArray
            (copied ++ (c.ready.out num.toNat).1)).pool
          ((c.ready.out num.toNat).1.foldl (Ledger.deliver fun _ => cpu) ledger) :=
        delivered.frame (fun k c here => ⟨c, here, rfl⟩) fun _ _ => rfl
      have grown := outstanding_deliver (c.ready.out num.toNat).1 cpu ledger
      rw [mine trivial] at grown
      cases onward with
      | full | next =>
          refine inv.records_client (client trivial) ?_ ?_
          · rw [areaLedger, List.drop_left]
            exact carried
          · rw [areaLedger, List.drop_left, grown]
            exact List.append_assoc _ _ _
  | publishes hand copied =>
      refine inv.records_client (client trivial)
        (records.carries.frame (fun k c here => ⟨c, here, rfl⟩) fun _ _ => rfl) ?_
      have delivered : (s.shared.setIdxNum copied.length).pool.m.delivered = copied :=
        relies.2.2
      rw [delivered]
      exact mine trivial
  | frees hand idlist =>
      refine inv.records_client (client trivial) ?_ ?_
      · refine ⟨records.carries.bounded, records.carries.queued, ?_⟩
        exact fun d member => records.carries.read d (List.mem_of_mem_filter member)
      · have distinct := inv.keeps_nodup t
        rw [here] at distinct
        have held : hand.Nodup := (List.nodup_append.mp distinct).1
        show (ledger.held.filter fun d => d.idx ∉ idlist).map Delivery.idx = hand.diff idlist
        rw [held.sdiff_eq_filter, ← show ledger.outstanding = hand from mine trivial]
        simp only [Ledger.outstanding, List.filter_map]
        rfl
  | releases hand addr handled cpu left =>
      refine inv.records_client (client trivial) ?_ (mine trivial)
      refine records.carries.frame (fun k c here => ⟨c, here, rfl⟩) ?_
      intro j _
      by_cases same : j = addr
      · rw [same, elem_setElem_self]
      · rw [elem_setElem_of_ne _ _ same]
  | gives hand addr handled cpu left c present =>
      exact inv.records_client (client trivial)
        (records.carries.frame (fifos_set present rfl) fun _ _ => rfl) (mine trivial)
  | stays =>
      have same : areaLedger pc' pc' ledger = ledger := by
        cases pc' with
        | client hand task => cases task <;> simp [areaLedger]
        | _ => rfl
      rw [same]
      by_cases kind : pc'.IsClient
      · exact inv.records_client (client kind) records.carries (mine kind)
      · exact records.put inv (put kind) records.carries rfl
  | _ => exact records.put inv (put id) records.carries rfl

end Step

/-! ## Runs -/

section Runs

variable {q : IpQueue} {events : List (ℕ × AreaAct)}

/-- The shared area and the ledger after some steps. -/
abbrev areaRun (q : IpQueue) (events : List (ℕ × AreaAct)) : Areas × Ledger :=
  run (observe areaStep areaLedgerStep) (sharedArea q, Ledger.empty) events

theorem areaRecords_run (created : Creates q)
    (gives : Meets areaStep GivesBack (sharedArea q) events) :
    AreaInv (areaRun q events).1 ∧ AreaRecords (areaRun q events).1 (areaRun q events).2 := by
  have kept : ∀ (both : Areas × Ledger) (event : ℕ × AreaAct),
      AreaInv both.1 ∧ AreaRecords both.1 both.2 → GivesBack both.1 event →
      AreaInv (observe areaStep areaLedgerStep both event).1 ∧
        AreaRecords (observe areaStep areaLedgerStep both event).1
          (observe areaStep areaLedgerStep both event).2 := by
    rintro ⟨s, ledger⟩ ⟨t, act⟩ ⟨inv, records⟩ given
    refine ⟨inv.step act given, ?_⟩
    have stepped := records.step inv given.honest (took_areaAct (s.pc t) act (inv.usable t))
    have moved : (areaStep s (t, act)).pc t = (areaAct s.shared (s.pc t) act).2 := pc_move_self
    show AreaRecords _ (areaLedger _ _ _)
    rw [moved]
    exact stepped
  have first : AreaRecords (sharedArea q) Ledger.empty := by
    refine ⟨⟨fun _ => le_rfl, ?_, ?_⟩, rfl⟩
    · intro cpu c present
      have fresh := (fresh_of_creates created).2.1 c (List.mem_of_getElem? present)
      simp [Ledger.empty, fresh.ready, IpQueue.records]
    · intro d member
      exact absurd member List.not_mem_nil
  exact invariant kept ⟨areaInv_sharedArea created, first⟩ ((meets_observe_iff _).mpr gives)

/-- In every order of the steps the ready indices of a CPU have the accepted records that were
not handed over, in order; the client holds what the ledger says, and at each index it holds
it reads the accepted record of that number, which no put is writing. -/
theorem records_carried (q : IpQueue) (events : List (ℕ × AreaAct)) (created : Creates q)
    (gives : Meets areaStep GivesBack (sharedArea q) events) :
    (∀ cpu c, (areaRun q events).1.shared.pool.qptr[cpu]? = some c →
      ((areaRun q events).2.accepted cpu).drop ((areaRun q events).2.delivered cpu) =
        (areaRun q events).1.shared.pool.records c.ready.items) ∧
    (areaRun q events).2.outstanding = ((areaRun q events).1.pc 0).holds ∧
    ∀ d ∈ (areaRun q events).2.held,
      ((areaRun q events).2.accepted d.cpu)[d.seq]? =
        some ((areaRun q events).1.shared.pool.m.elem d.idx).info ∧
      ∀ t, ((areaRun q events).1.pc t).owns ≠ some d.idx := by
  rcases areaRecords_run created gives with ⟨inv, records⟩
  refine ⟨records.carries.queued, records.outstanding, ?_⟩
  intro d member
  refine ⟨records.carries.read d member, ?_⟩
  have held : d.idx ∈ (areaRun q events).2.outstanding := List.mem_map_of_mem member
  rw [records.outstanding] at held
  exact (inv.off_of_keeps (holds_subset_keeps _ held)).2

theorem records_carried_for_putAndFetch :
    ((areaRun smallPool putAndFetch).2.accepted 0)[0]? =
      some ((areaRun smallPool putAndFetch).1.shared.pool.m.elem 0).info := by
  have gives : Meets areaStep GivesBack (sharedArea smallPool) putAndFetch :=
    ((meets_append _ _ _).mp putAndGiveBack_gives).1
  exact ((records_carried smallPool putAndFetch creates_smallPool gives).2.2 ⟨0, 0, 0⟩
    List.mem_cons_self).1

end Runs

end Linguafranca.Ipshark2
