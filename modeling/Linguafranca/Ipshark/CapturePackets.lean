import Linguafranca.Ipshark.CaptureClient

/-!
# The steps of the packets

A packet in a hook relies on the table, the queue and its place in a bucket, and its own steps
keep the invariant too. So in no interleaving is memory used that is not allocated, and once
the device is closed nothing is left allocated and no packet is in a hook.
-/

namespace Linguafranca.Ipshark

open Run Interleaving Chain

variable {jhash : List UInt8 → UInt32 → UInt32} {ncpu : ℕ}

section Step

variable {s : Captures} {chains chains' : ℕ → List ℕ} {t : ℕ} {c' : Capture}
  {task task' : CaptureTask} {p : Packet} {hook hook' : HookTask} {pc' : CapturePc}

theorem CaptureInv.hook_move (inv : CaptureInv jhash ncpu s chains) (other : ¬(s.pc t).IsClient)
    (other' : ¬pc'.IsClient) (sound : pc' ≠ .fault) (same : SameMemory s.shared c' chains)
    (nodes : c'.nodes = s.shared.nodes) (hooks : c'.hooks = s.shared.hooks)
    (claims : Claims c'.putting (Function.update (fun u => (s.pc u).cpu) t pc'.cpu))
    (counts : ∀ i, Counts (c'.running i) (inside (CapturePc.InHook i) (s.move t c' pc')))
    (guest : ∀ p hook, pc' = .hook p hook →
      Guest jhash ncpu s.shared (s.pc 0).task chains p hook) :
    CaptureInv jhash ncpu (s.move t c' pc') chains := by
  have differ : 0 ≠ t := by
    intro zero
    exact other ((inv.one t).mpr zero.symm)
  have now : (s.move t c' pc').pc 0 = s.pc 0 := pc_move_of_ne differ
  have relies := inv.memory.relies.frame same nodes
  refine ⟨?_, ?_, counts, ?_, ?_, ?_, ?_⟩
  · intro u
    by_cases mine : u = t
    · rw [mine, pc_move_self]
      exact iff_of_false other' fun zero => differ zero.symm
    · rw [pc_move_of_ne mine]
      exact inv.one u
  · rw [read_move]
    exact claims
  · rw [now]
    exact inv.memory.keep same Iff.rfl Iff.rfl (hooks.trans inv.memory.hooks) relies
  · have owns : pc'.owns = (s.pc t).owns := by
      have none : ∀ pc : CapturePc, ¬pc.IsClient → pc.owns = Option.none := by
        intro pc outside
        cases pc with
        | client => exact absurd trivial outside
        | _ => rfl
      rw [none pc' other', none (s.pc t) other]
    rw [read_move_of_eq s t c' pc' CapturePc.owns owns, shared_move, nodes]
    exact inv.custody
  · intro u p hook found
    rw [now]
    have before : Guest jhash ncpu s.shared (s.pc 0).task chains p hook := by
      by_cases mine : u = t
      · rw [mine, pc_move_self] at found
        exact guest p hook found
      · rw [pc_move_of_ne mine] at found
        exact inv.guests u p hook found
    exact before.carry (fun _ below _ => below) same.table same.fifo same.grows
  · intro u
    by_cases mine : u = t
    · rw [mine, pc_move_self]
      exact sound
    · rw [pc_move_of_ne mine]
      exact inv.sound u

theorem CaptureInv.counts_keep (inv : CaptureInv jhash ncpu s chains)
    (running : c'.running = s.shared.running)
    (same : ∀ i, pc'.InHook i ↔ (s.pc t).InHook i) :
    ∀ i, Counts (c'.running i) (inside (CapturePc.InHook i) (s.move t c' pc')) := by
  intro i
  rw [running, inside_move_of_iff (same i)]
  exact inv.counts i

theorem CaptureInv.claims_keep (inv : CaptureInv jhash ncpu s chains)
    (putting : c'.putting = s.shared.putting) (same : pc'.cpu = (s.pc t).cpu) :
    Claims c'.putting (Function.update (fun u => (s.pc u).cpu) t pc'.cpu) := by
  rw [putting, same, Function.update_eq_self]
  exact inv.claims

/-- A packet goes on in its hook and leaves the memory alone. -/
theorem CaptureInv.hook_keep (inv : CaptureInv jhash ncpu s chains) (here : s.pc t = .hook p hook)
    (same : SameMemory s.shared c' chains) (nodes : c'.nodes = s.shared.nodes)
    (hooks : c'.hooks = s.shared.hooks) (running : c'.running = s.shared.running)
    (putting : c'.putting = s.shared.putting)
    (cpu : (CapturePc.hook p hook').cpu = (CapturePc.hook p hook).cpu)
    (relies : hook.Relies jhash s.shared chains → hook'.Relies jhash s.shared chains) :
    CaptureInv jhash ncpu (s.move t c' (.hook p hook')) chains := by
  refine inv.hook_move (by rw [here]; exact id) id (by simp) same nodes hooks ?_ ?_ ?_
  · apply inv.claims_keep putting
    rw [here]
    exact cpu
  · apply inv.counts_keep running
    intro i
    rw [here]
    exact Iff.rfl
  · intro q task found
    cases found
    have guest := inv.guests t p hook here
    exact ⟨guest.hook, guest.possible, relies guest.relies⟩

/-- Looking at the device set and at the queue a packet finds what it relies on. -/
theorem HookLooks.relies (looks : HookLooks jhash s.shared p hook hook')
    (memory : CaptureMemory jhash ncpu s.shared task chains)
    (relies : hook.Relies jhash s.shared chains) : hook'.Relies jhash s.shared chains := by
  cases looks with
  | waits | gates | readsCount => exact relies
  | looksUp => rfl
  | heads dev left table first here =>
      rw [show table = s.shared.devHashtable from relies] at here
      rcases Option.bind_eq_some_iff.mp here with ⟨current, table', contents⟩
      exact ⟨[], At.start (memory.linked current first
        (table_eq_some_iff.mpr ⟨table', contents⟩) _)⟩
  | walks dev left pos node here other =>
      rcases relies with ⟨visited, walks⟩
      refine ⟨visited ++ [pos], walks.forward ?_⟩
      rw [Capture.nextOf, here]
      rfl
  | _ => trivial

theorem HookLooks.cpu_eq (looks : HookLooks jhash s.shared p hook hook') :
    (CapturePc.hook p hook').cpu = (CapturePc.hook p hook).cpu := by
  cases looks with
  | _ => rfl

/-- A packet that arrives is one more in its hook. -/
theorem CaptureInv.counts_arrive (inv : CaptureInv jhash ncpu s chains) {place : ℕ}
    (here : s.pc t = .resting) (hooked : p.hooknum = some place) (c' : Capture) :
    ∀ i, Counts (Function.update s.shared.running place (s.shared.running place + 1) i)
      (inside (CapturePc.InHook i) (s.move t c' (.hook p .arrived))) := by
  intro i
  by_cases mine : i = place
  · have entered : (CapturePc.hook p .arrived).InHook place := hooked
    have outside : t ∉ inside (CapturePc.InHook place) s := by
      rw [mem_inside, here]
      exact id
    rw [mine, inside_move_of_inside entered]
    simpa using (inv.counts place).enter outside
  · have elsewhere : ¬(CapturePc.hook p .arrived).InHook i := by
      intro inHook
      rw [CapturePc.InHook, hooked, Option.some.injEq] at inHook
      exact mine inHook.symm
    rw [inside_move_of_iff (iff_of_false elsewhere (by rw [here]; exact id))]
    simpa [Function.update_of_ne mine] using inv.counts i

/-- A packet that returns is one less. -/
theorem CaptureInv.counts_return (inv : CaptureInv jhash ncpu s chains) {place : ℕ}
    (here : s.pc t = .hook p hook) (hooked : p.hooknum = some place) (c' : Capture) :
    ∀ i, Counts (Function.update s.shared.running place (s.shared.running place - 1) i)
      (inside (CapturePc.InHook i) (s.move t c' .resting)) := by
  intro i
  have gone : ¬CapturePc.resting.InHook i := id
  rw [inside_move_of_outside gone]
  by_cases mine : i = place
  · have member : t ∈ inside (CapturePc.InHook place) s := by
      rw [mem_inside, here]
      exact hooked
    rw [mine]
    simpa using (inv.counts place).leave member
  · have outside : t ∉ inside (CapturePc.InHook i) s := by
      rw [mem_inside, here]
      intro inHook
      rw [CapturePc.InHook, hooked, Option.some.injEq] at inHook
      exact mine inHook.symm
    rw [Set.sdiff_singleton_eq_self outside]
    simpa [Function.update_of_ne mine] using inv.counts i

/-- Whatever a packet does next, the memory serves it. -/
theorem CaptureInv.packet (inv : CaptureInv jhash ncpu s chains) (other : ¬(s.pc t).IsClient)
    (took : CaptureTook jhash ncpu s.shared (s.pc t) c' pc') :
    CaptureInv jhash ncpu (s.move t c' pc') chains := by
  generalize here : s.pc t = pc at took
  cases took with
  | stays =>
      have unmoved : s.move t s.shared pc' = s := by
        rw [← here, Threads.move, Function.update_eq_self]
      rw [unmoved]
      exact inv
  | arrives p place hooked registered possible =>
      have unchanged : SameMemory s.shared { s.shared with
          running := Function.update s.shared.running place (s.shared.running place + 1) } chains :=
        sameMemory_of_eq rfl rfl rfl rfl rfl
      refine inv.hook_move other id (by simp) unchanged rfl rfl
        (inv.claims_keep rfl (by rw [here]; rfl)) (inv.counts_arrive here hooked _) ?_
      intro q task found
      cases found
      refine ⟨⟨place, ?_, hooked⟩, possible, trivial⟩
      rw [inv.memory.hooks] at registered
      apply lt_of_lt_of_le registered
      cases (s.pc 0).task with
      | synchronizing hook => exact Nat.le_succ hook
      | _ => exact le_rfl
  | looks p looks =>
      exact inv.hook_keep here (SameMemory.refl _ _) rfl rfl rfl rfl looks.cpu_eq
        (looks.relies inv.memory)
  | disables p info free =>
      have unchanged : SameMemory s.shared (s.shared.setPutting p.cpu true) chains :=
        sameMemory_of_eq rfl rfl rfl rfl rfl
      refine inv.hook_move other id (by simp) unchanged rfl rfl (inv.claims.claim free)
        (inv.counts_keep rfl fun i => by rw [here]; exact Iff.rfl) ?_
      intro q task found
      cases found
      have guest := inv.guests t p _ here
      exact ⟨guest.hook, guest.possible, rfl⟩
  | puts p info fifo q cpus f queue present =>
      exact inv.hook_keep here (sameMemory_setFifo queue p.cpu _) rfl rfl rfl rfl rfl id
  | counts p put fifo pkts =>
      cases put with
      | false =>
          show CaptureInv jhash ncpu (s.move t { s.shared with unQueuedPkts := pkts + 1 } _) chains
          exact inv.hook_keep here (sameMemory_of_eq rfl rfl rfl rfl rfl) rfl rfl rfl rfl rfl id
      | true =>
          show CaptureInv jhash ncpu (s.move t { s.shared with putPkts := pkts + 1 } _) chains
          exact inv.hook_keep here (sameMemory_of_eq rfl rfl rfl rfl rfl) rfl rfl rfl rfl rfl id
  | alarms p fifo q cpus f queue present =>
      have same : SameMemory s.shared (s.shared.setFifo q p.cpu cpus (updateAlarm f)) chains :=
        sameMemory_setFifo queue p.cpu _
      exact inv.hook_keep here same rfl rfl rfl rfl rfl fun _ => trivial
  | leaves p =>
      have unchanged : SameMemory s.shared (s.shared.setPutting p.cpu false) chains :=
        sameMemory_of_eq rfl rfl rfl rfl rfl
      refine inv.hook_move other id (by simp) unchanged rfl rfl
        (inv.claims.release (by rw [here]; rfl))
        (inv.counts_keep rfl fun i => by rw [here]; exact Iff.rfl) ?_
      intro q task found
      cases found
      have guest := inv.guests t p _ here
      exact ⟨guest.hook, guest.possible, trivial⟩
  | returns p place hooked =>
      have unchanged : SameMemory s.shared { s.shared with
          running := Function.update s.shared.running place (s.shared.running place - 1) } chains :=
        sameMemory_of_eq rfl rfl rfl rfl rfl
      exact inv.hook_move other id (by simp) unchanged rfl rfl
        (inv.claims_keep rfl (by rw [here]; rfl)) (inv.counts_return here hooked _)
        (fun q task found => by cases found)
  | _ => exact absurd (show (s.pc t).IsClient by rw [here]; trivial) other

/-- What a thread uses next is there. -/
theorem CaptureInv.usable (inv : CaptureInv jhash ncpu s chains) (t : ℕ) :
    (s.pc t).Usable s.shared := by
  cases here : s.pc t with
  | resting => trivial
  | fault => exact absurd here (inv.sound t)
  | hook p task =>
      have guest := inv.guests t p task here
      rcases guest.hasQueue with ⟨hasTable, hasQueue⟩
      have relies := guest.relies
      cases task with
      | heading dev left table =>
          rcases inv.memory.exists_table hasTable with ⟨current, heads, tabled⟩
          rcases table_eq_some_iff.mp tabled with ⟨pointer, contents⟩
          show (table.bind s.shared.tables).isSome
          rw [show table = s.shared.devHashtable from relies, pointer, Option.bind_some, contents]
          rfl
      | walking dev left pos =>
          cases pos with
          | none => trivial
          | some pos =>
              rcases relies with ⟨visited, walks⟩
              exact inv.isSome_of_mem walks.mem
      | queueing info fifo | alarming fifo =>
          rcases inv.memory.exists_fifos hasQueue with ⟨q, cpus, queue, length⟩
          rw [← show fifo = s.shared.ipFifo from relies] at queue
          exact ⟨q, cpus, queue, by rw [length]; exact guest.possible⟩
      | returning =>
          rcases guest.hook with ⟨i, -, place⟩
          exact Option.isSome_iff_exists.mpr ⟨i, place⟩
      | _ => trivial
  | client task =>
      have memory := inv.memory
      rw [inv.task_eq here] at memory
      have relies := memory.relies
      have tabled : task.HasTable → s.shared.table.isSome := by
        intro has
        rcases memory.exists_table has with ⟨current, heads, tabled⟩
        rw [tabled]
        rfl
      cases task with
      | naming names =>
          cases names with
          | nil => trivial
          | cons name rest => exact tabled trivial
      | seeking name rest pos =>
          cases pos with
          | none => trivial
          | some pos =>
              rcases relies with ⟨visited, walks⟩
              exact inv.isSome_of_mem walks.mem
      | linking name rest newnode =>
          exact ⟨tabled trivial, inv.custody.owned t newnode (by rw [here]; rfl)⟩
      | publishing name rest newnode | clearing bucket => exact tabled trivial
      | moving args cpu copied infonum =>
          rcases memory.exists_fifos trivial with ⟨q, cpus, queue, -⟩
          refine ⟨by rw [queue]; rfl, ?_⟩
          rcases relies with ⟨small, asked⟩
          omega
      | exitQueue => exact fun q queue => (memory.fifos q).mpr queue
      | freeing bucket pos =>
          rcases relies with ⟨-, -, rest, chain⟩
          exact ⟨tabled trivial, inv.isSome_of_mem (by rw [chain]; exact List.mem_cons_self)⟩
      | _ => trivial

theorem CaptureInv.step (inv : CaptureInv jhash ncpu s chains) (event : ℕ × CaptureAct) :
    CaptureInv jhash ncpu (captureStep jhash ncpu s event)
      (chainsStep jhash ncpu s event chains) := by
  have took : CaptureTook jhash ncpu s.shared (s.pc event.1) _ _ :=
    took_captureAct (s.pc event.1) event.2 (inv.usable event.1)
  have moved : (captureStep jhash ncpu s event).pc event.1 =
      (captureAct jhash ncpu s.shared (s.pc event.1) event.2).2 := pc_move_self
  rw [chainsStep, moved]
  by_cases client : (s.pc event.1).IsClient
  · cases here : s.pc event.1 with
    | client task =>
        rw [here] at took
        have stepped := inv.client here took
        rw [← here] at stepped ⊢
        exact stepped
    | _ =>
        rw [here] at client
        exact absurd client id
  · have unchanged : chainsAfter jhash (s.pc event.1)
        (captureAct jhash ncpu s.shared (s.pc event.1) event.2).2 chains = chains := by
      cases here : s.pc event.1 with
      | client task => exact absurd (show (s.pc event.1).IsClient by rw [here]; trivial) client
      | _ => rfl
    rw [unchanged]
    exact inv.packet client took

end Step

/-! ## Runs -/

section Runs

variable (jhash : List UInt8 → UInt32 → UInt32) (ncpu : ℕ)

theorem captureInv_loaded : CaptureInv jhash ncpu loadedCapture fun _ => [] := by
  have first : ∀ t, loadedCapture.pc t = if t = 0 then .client .closed else .resting :=
    fun _ => rfl
  have idle : ∀ t, (loadedCapture.pc t).cpu = none ∧ (loadedCapture.pc t).owns = none ∧
      loadedCapture.pc t ≠ .fault ∧ ∀ p task, loadedCapture.pc t ≠ .hook p task := by
    intro t
    rw [first]
    by_cases zero : t = 0
    · rw [if_pos zero]
      exact ⟨rfl, rfl, by simp, by simp⟩
    · rw [if_neg zero]
      exact ⟨rfl, rfl, by simp, by simp⟩
  refine ⟨?_, ?_, ?_, ?_, ?_, ?_, fun t => (idle t).2.2.1⟩
  · intro t
    rw [first]
    by_cases zero : t = 0
    · simp [zero, CapturePc.IsClient]
    · simp [zero, CapturePc.IsClient]
  · constructor
    · intro t cpu here
      rw [(idle t).1] at here
      exact absurd here (by simp)
    · intro t t' cpu here
      rw [(idle t).1] at here
      exact absurd here (by simp)
  · intro i
    have nobody : inside (CapturePc.InHook i) loadedCapture = ∅ := by
      rw [Set.eq_empty_iff_forall_notMem]
      intro t inHook
      rw [mem_inside] at inHook
      cases here : loadedCapture.pc t with
      | hook p task => exact absurd here ((idle t).2.2.2 p task)
      | _ =>
          rw [here] at inHook
          exact inHook
    rw [nobody]
    exact Counts.empty
  · refine ⟨?_, fun has => absurd has id, ?_, iff_of_false id (by simp [loadedCapture]), ?_, ?_,
      fun _ _ => rfl, fun _ _ => rfl, rfl, rfl⟩
    · simp [loadedCapture]
    · simp [loadedCapture]
    · simp [loadedCapture]
    · intro t heads tabled
      exact absurd (table_eq_some_iff.mp tabled).1 (by simp [loadedCapture])
  · have nothing : {q | (loadedCapture.shared.nodes q).isSome} = ∅ := by simp [loadedCapture]
    have bare : Buckets.entries (2 ^ devnameHashBits) (fun _ => ([] : List ℕ)) = [] := by
      simp [Buckets.entries]
    rw [nothing, bare, funext fun t => (idle t).2.1]
    exact Custody.empty
  · exact fun t p task here => absurd here ((idle t).2.2.2 p task)

theorem captureInv_run (events : List (ℕ × CaptureAct)) :
    CaptureInv jhash ncpu (run (captureStep jhash ncpu) loadedCapture events)
      (run (observe (captureStep jhash ncpu) (chainsStep jhash ncpu))
        (loadedCapture, fun _ => []) events).2 := by
  have kept : ∀ (both : Captures × (ℕ → List ℕ)) event, CaptureInv jhash ncpu both.1 both.2 →
      CaptureInv jhash ncpu (observe (captureStep jhash ncpu) (chainsStep jhash ncpu) both event).1
        (observe (captureStep jhash ncpu) (chainsStep jhash ncpu) both event).2 :=
    fun both event inv => inv.step event
  have first : CaptureInv jhash ncpu (loadedCapture, fun _ : ℕ => ([] : List ℕ)).1
      (loadedCapture, fun _ : ℕ => ([] : List ℕ)).2 := captureInv_loaded jhash ncpu
  have both := invariant_of_step kept events first
  rw [run_observe_fst] at both
  exact both

/-- However the packets and the client interleave, no thread uses memory that is not
allocated; while a packet is in a hook, the table and the queue stay, and the queue has a
fifo for its CPU. -/
theorem hooks_use_allocated (events : List (ℕ × CaptureAct)) :
    (∀ t, (run (captureStep jhash ncpu) loadedCapture events).pc t ≠ .fault) ∧
    ∀ t p task, (run (captureStep jhash ncpu) loadedCapture events).pc t = .hook p task →
      (run (captureStep jhash ncpu) loadedCapture events).shared.table.isSome ∧
      ∃ q cpus, (run (captureStep jhash ncpu) loadedCapture events).shared.cpuFifos
          (run (captureStep jhash ncpu) loadedCapture events).shared.ipFifo = some (q, cpus) ∧
        p.cpu < cpus.length := by
  have inv := captureInv_run jhash ncpu events
  refine ⟨inv.sound, ?_⟩
  intro t p task here
  have guest := inv.guests t p task here
  rcases inv.memory.exists_table guest.hasQueue.1 with ⟨table, heads, tabled⟩
  rcases inv.memory.exists_fifos guest.hasQueue.2 with ⟨q, cpus, queue, length⟩
  refine ⟨by rw [tabled]; rfl, q, cpus, queue, ?_⟩
  rw [length]
  exact guest.possible

/-- When the client has closed the device, or could not open it, nothing is left of it: no
memory, no hook and no packet in one. -/
theorem tidy_when_closed (events : List (ℕ × CaptureAct))
    (closed : (run (captureStep jhash ncpu) loadedCapture events).pc 0 = .client .closed) :
    (∀ t, (run (captureStep jhash ncpu) loadedCapture events).shared.tables t = none) ∧
    (∀ p, (run (captureStep jhash ncpu) loadedCapture events).shared.nodes p = none) ∧
    (∀ q, (run (captureStep jhash ncpu) loadedCapture events).shared.fifos q = none) ∧
    (run (captureStep jhash ncpu) loadedCapture events).shared.hooks = 0 ∧
    (∀ i, (run (captureStep jhash ncpu) loadedCapture events).shared.running i = 0) ∧
    ∀ t ≠ 0, (run (captureStep jhash ncpu) loadedCapture events).pc t = .resting := by
  have inv := captureInv_run jhash ncpu events
  have memory := inv.memory
  rw [inv.task_eq closed] at memory
  have out : ∀ t p task,
      (run (captureStep jhash ncpu) loadedCapture events).pc t ≠ .hook p task := by
    intro t p task here
    have guest := inv.guests t p task here
    rw [inv.task_eq closed] at guest
    exact guest.hasQueue.1
  refine ⟨memory.tables_eq_none id, ?_, memory.fifos_eq_none id, memory.hooks, ?_, ?_⟩
  · intro p
    rw [← Option.not_isSome_iff_eq_none]
    intro live
    rcases inv.custody.noLeak p live with listed | ⟨t, owned⟩
    · rcases mem_entries_iff.mp listed with ⟨i, -, member⟩
      rw [memory.bare id i] at member
      exact absurd member List.not_mem_nil
    · cases here : (run (captureStep jhash ncpu) loadedCapture events).pc t with
      | client task =>
          rw [← inv.task_eq here, inv.task_eq closed] at here
          rw [here] at owned
          exact absurd owned (by simp [CapturePc.owns, CaptureTask.owns])
      | _ =>
          rw [here] at owned
          exact absurd owned (by simp [CapturePc.owns])
  · intro i
    apply (inv.counts i).eq_zero_iff.mpr
    rw [Set.eq_empty_iff_forall_notMem]
    intro t inHook
    rw [mem_inside] at inHook
    cases here : (run (captureStep jhash ncpu) loadedCapture events).pc t with
    | hook p task => exact out t p task here
    | _ =>
        rw [here] at inHook
        exact inHook
  · intro t other
    cases here : (run (captureStep jhash ncpu) loadedCapture events).pc t with
    | resting => rfl
    | hook p task => exact absurd here (out t p task)
    | client task => exact absurd (inv.eq_zero here) other
    | fault => exact absurd here (inv.sound t)

/-- A black list with one name. -/
def oneBlackName : SetArgs where
  copyList := 0
  whiteBlack := ipsBlack
  devnum := 1
  accessOk := true
  vmalloc := true
  copyNames := 0
  names := fun _ => Bytes.zero 16
  kmalloc := fun _ => true

/-- The device is opened, a name is added, and the device is closed again. -/
def openAndClose : List (ℕ × CaptureAct) :=
  [(0, .open [true]), (0, .next (some 0)), (0, .next (some 0))] ++
    List.replicate 7 (0, .next none) ++ (0, .setNamelist oneBlackName) ::
    List.replicate 7 (0, .next (some 0)) ++ (0, .release) ::
    List.replicate 273 (0, .next none)

set_option maxRecDepth 8000 in
theorem tidy_when_closed_for_openAndClose :
    (run (captureStep (fun _ _ => 0) 1) loadedCapture openAndClose).shared.nodes 0 = none :=
  (tidy_when_closed (fun _ _ => 0) 1 openAndClose rfl).2.1 0

end Runs

end Linguafranca.Ipshark
