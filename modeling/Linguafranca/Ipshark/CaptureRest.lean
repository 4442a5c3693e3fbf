import Linguafranca.Ipshark.CapturePackets
import Linguafranca.Support.Progress

/-!
# Hooks and client can always finish

A put waits until its CPU is free, and a release waits for the packets in the hooks. Neither
can wait forever: a packet that has its CPU can go on to the end, so can any packet once no
CPU is taken, and so can the client once no packet is in a hook. The device can therefore be
closed from every state that is reached.
-/

namespace Linguafranca.Ipshark

open Run Interleaving Chain

section

variable (jhash : List UInt8 → UInt32 → UInt32) (ncpu : ℕ)

/-- A state that is reached, where a flagged CPU is that of a packet. -/
structure Reached (s : Captures) : Prop where
  chains : ∃ chains, CaptureInv jhash ncpu s chains
  flagged : ∀ k, s.shared.putting k = true → ∃ t, (s.pc t).cpu = some k

end

variable {jhash : List UInt8 → UInt32 → UInt32} {ncpu : ℕ} {s : Captures} {t : ℕ}

theorem Reached.usable (reached : Reached jhash ncpu s) (t : ℕ) : (s.pc t).Usable s.shared := by
  rcases reached.chains with ⟨chains, inv⟩
  exact inv.usable t

/-- A thread that has no CPU before and after does not change which are flagged. -/
theorem flagged_move {c' : Capture} {pc' : CapturePc}
    (flagged : ∀ k, s.shared.putting k = true → ∃ t, (s.pc t).cpu = some k)
    (putting : c'.putting = s.shared.putting) (cpu : pc'.cpu = (s.pc t).cpu) :
    ∀ k, (s.move t c' pc').shared.putting k = true →
      ∃ u, ((s.move t c' pc').pc u).cpu = some k := by
  intro k on
  rw [shared_move, putting] at on
  rcases flagged k on with ⟨u, has⟩
  refine ⟨u, ?_⟩
  by_cases same : u = t
  · rw [same, pc_move_self, cpu, ← same]
    exact has
  · rw [pc_move_of_ne same]
    exact has

theorem Reached.step (reached : Reached jhash ncpu s) (event : ℕ × CaptureAct) :
    Reached jhash ncpu (captureStep jhash ncpu s event) := by
  rcases reached.chains with ⟨chains, inv⟩
  refine ⟨⟨_, inv.step event⟩, ?_⟩
  have took : CaptureTook jhash ncpu s.shared (s.pc event.1) _ _ :=
    took_captureAct (s.pc event.1) event.2 (inv.usable event.1)
  have keep : ∀ {c' : Capture} {pc' : CapturePc}, c'.putting = s.shared.putting →
      pc'.cpu = (s.pc event.1).cpu → ∀ k, (s.move event.1 c' pc').shared.putting k = true →
        ∃ u, ((s.move event.1 c' pc').pc u).cpu = some k :=
    fun putting cpu => flagged_move reached.flagged putting cpu
  rcases event with ⟨t, act⟩
  generalize result : captureAct jhash ncpu s.shared (s.pc t) act = after at took
  rw [captureStep, Interleaving.step]
  simp only [result]
  rcases after with ⟨c', pc'⟩
  generalize here : s.pc t = pc at took
  simp only at took ⊢
  cases took with
  | stays => exact keep rfl (by rw [here])
  | looks p looks => exact keep rfl (by rw [here]; exact looks.cpu_eq)
  | disables p info free =>
      intro k on
      by_cases same : k = p.cpu
      · exact ⟨t, by rw [pc_move_self, same]; rfl⟩
      · simp only [shared_move, Capture.setPutting, Function.update_of_ne same] at on
        rcases reached.flagged k on with ⟨u, has⟩
        have other : u ≠ t := by
          intro mine
          rw [mine, here] at has
          exact absurd has (by simp [CapturePc.cpu])
        exact ⟨u, by rw [pc_move_of_ne other]; exact has⟩
  | leaves p =>
      intro k on
      have differ : k ≠ p.cpu := by
        intro same
        simp [Capture.setPutting, same] at on
      simp only [shared_move, Capture.setPutting, Function.update_of_ne differ] at on
      rcases reached.flagged k on with ⟨u, has⟩
      have other : u ≠ t := by
        intro mine
        rw [mine, here, CapturePc.cpu, Option.some.injEq] at has
        exact differ has.symm
      exact ⟨u, by rw [pc_move_of_ne other]; exact has⟩
  | counts p put fifo pkts => cases put <;> exact keep rfl (by rw [here]; rfl)
  | _ => exact keep rfl (by rw [here]; rfl)

/-! ## Packets -/

section Packets

variable {p : Packet} {task : HookTask} {c' : Capture} {pc' : CapturePc} {goal : CapturePc → Prop}
  {dev : NetDevice} {left : List NetDevice}

/-- One step of a packet, with what it leads to. -/
theorem Reached.goesOn (reached : Reached jhash ncpu s) (here : s.pc t = .hook p task)
    (next : hookNext jhash s.shared p task = (c', pc'))
    (later : ∀ s', Reached jhash ncpu s' → s'.shared = c' → s'.pc t = pc' →
      Comes (captureAct jhash ncpu) (.next none) goal s' t) :
    Comes (captureAct jhash ncpu) (.next none) goal s t := by
  apply comes_of_step
  have moved : captureAct jhash ncpu s.shared (s.pc t) (.next none) = (c', pc') := by
    rw [here]
    exact next
  apply later
  · exact reached.step (t, .next none)
  · rw [shared_step, moved]
  · rw [show (Interleaving.step _ s (t, CaptureAct.next none)).pc t = _ from pc_move_self, moved]

theorem comes_returning (reached : Reached jhash ncpu s) (here : s.pc t = .hook p .returning)
    (atRest : goal .resting) : Comes (captureAct jhash ncpu) (.next none) goal s t := by
  have usable := reached.usable t
  rw [here] at usable
  rcases Option.isSome_iff_exists.mp usable with ⟨hook, place⟩
  apply reached.goesOn here (by rw [hookNext, place])
  intro s' _ _ rests
  apply comes_here
  rw [rests]
  exact atRest

theorem comes_leaving (reached : Reached jhash ncpu s) (here : s.pc t = .hook p .leaving)
    (atRest : goal .resting) : Comes (captureAct jhash ncpu) (.next none) goal s t := by
  apply reached.goesOn here rfl
  intro s' reached' _ here'
  exact comes_returning reached' here' atRest

theorem comes_alarming {fifo : Option ℕ} (reached : Reached jhash ncpu s)
    (here : s.pc t = .hook p (.alarming fifo)) (atRest : goal .resting) :
    Comes (captureAct jhash ncpu) (.next none) goal s t := by
  have usable := reached.usable t
  rw [here] at usable
  rcases usable with ⟨q, cpus, queue, possible⟩
  apply reached.goesOn here (by simp only [hookNext, queue, List.getElem?_eq_getElem possible]; rfl)
  intro s' reached' _ here'
  exact comes_leaving reached' here' atRest

theorem comes_counted {put : Bool} {fifo : Option ℕ} {pkts : ℕ} (reached : Reached jhash ncpu s)
    (here : s.pc t = .hook p (.counted put fifo pkts)) (atRest : goal .resting) :
    Comes (captureAct jhash ncpu) (.next none) goal s t := by
  apply reached.goesOn here rfl
  intro s' reached' _ here'
  exact comes_alarming reached' here' atRest

theorem comes_counting {put : Bool} {fifo : Option ℕ} (reached : Reached jhash ncpu s)
    (here : s.pc t = .hook p (.counting put fifo)) (atRest : goal .resting) :
    Comes (captureAct jhash ncpu) (.next none) goal s t := by
  apply reached.goesOn here rfl
  intro s' reached' _ here'
  exact comes_counted reached' here' atRest

theorem comes_queueing {info : IpKeyInfo} {fifo : Option ℕ} (reached : Reached jhash ncpu s)
    (here : s.pc t = .hook p (.queueing info fifo)) (atRest : goal .resting) :
    Comes (captureAct jhash ncpu) (.next none) goal s t := by
  have usable := reached.usable t
  rw [here] at usable
  rcases usable with ⟨q, cpus, queue, possible⟩
  apply reached.goesOn here (by simp only [hookNext, queue, List.getElem?_eq_getElem possible]; rfl)
  intro s' reached' _ here'
  exact comes_counting reached' here' atRest

/-- A packet that has its CPU goes on to the end. -/
theorem comes_of_cpu {k : ℕ} (reached : Reached jhash ncpu s) (has : (s.pc t).cpu = some k)
    (atRest : goal .resting) : Comes (captureAct jhash ncpu) (.next none) goal s t := by
  cases here : s.pc t with
  | hook p task =>
      rw [here] at has
      cases task with
      | queueing info fifo => exact comes_queueing reached here atRest
      | counting put fifo => exact comes_counting reached here atRest
      | counted put fifo pkts => exact comes_counted reached here atRest
      | alarming fifo => exact comes_alarming reached here atRest
      | leaving => exact comes_leaving reached here atRest
      | _ => exact absurd has (by simp [CapturePc.cpu])
  | _ =>
      rw [here] at has
      exact absurd has (by simp [CapturePc.cpu])

theorem comes_entering {info : IpKeyInfo} (reached : Reached jhash ncpu s)
    (here : s.pc t = .hook p (.entering info)) (free : s.shared.putting p.cpu = false)
    (atRest : goal .resting) : Comes (captureAct jhash ncpu) (.next none) goal s t := by
  apply reached.goesOn here rfl
  intro s' reached' shared here'
  by_cases queue : s.shared.ipFifo.isSome
  · rw [if_pos queue] at here'
    have free' : s'.shared.putting p.cpu = false := by
      rw [shared]
      exact free
    apply reached'.goesOn here' (by rw [hookNext, if_neg (by rw [free']; simp)])
    intro s'' reached'' _ here''
    exact comes_queueing reached'' here'' atRest
  · rw [if_neg queue] at here'
    exact comes_returning reached' here' atRest

theorem comes_disabling {info : IpKeyInfo} (reached : Reached jhash ncpu s)
    (here : s.pc t = .hook p (.disabling info)) (free : s.shared.putting p.cpu = false)
    (atRest : goal .resting) : Comes (captureAct jhash ncpu) (.next none) goal s t := by
  apply reached.goesOn here (by rw [hookNext, if_neg (by rw [free]; simp)])
  intro s' reached' _ here'
  exact comes_queueing reached' here' atRest

theorem comes_filling (reached : Reached jhash ncpu s) (here : s.pc t = .hook p .filling)
    (free : s.shared.putting p.cpu = false) (atRest : goal .resting) :
    Comes (captureAct jhash ncpu) (.next none) goal s t := by
  cases made : p.filled with
  | none =>
      apply reached.goesOn here (by simp only [hookNext, made]; rfl)
      intro s' reached' _ here'
      exact comes_returning reached' here' atRest
  | some info =>
      apply reached.goesOn here (by simp only [hookNext, made]; rfl)
      intro s' reached' shared here'
      apply comes_entering reached' here' _ atRest
      rw [shared]
      exact free

/-- After the lookup of a device the others follow. -/
theorem comes_deciding {found : Bool} (reached : Reached jhash ncpu s)
    (here : s.pc t = .hook p (.deciding dev left found)) (free : s.shared.putting p.cpu = false)
    (atRest : goal .resting)
    (others : ∀ s', Reached jhash ncpu s' → s'.pc t = .hook p (.ignoring left) →
      s'.shared.putting p.cpu = false → Comes (captureAct jhash ncpu) (.next none) goal s' t) :
    Comes (captureAct jhash ncpu) (.next none) goal s t := by
  apply reached.goesOn here rfl
  intro s' reached' shared here'
  have free' : s'.shared.putting p.cpu = false := by
    rw [shared]
    exact free
  cases found <;> simp only [Bool.false_eq_true, if_true, if_false, decide_eq_true_eq] at here'
  all_goals split at here'
  · exact others s' reached' here' free'
  · exact comes_filling reached' here' free' atRest
  · exact others s' reached' here' free'
  · exact comes_filling reached' here' free' atRest

theorem comes_walking {rest : List ℕ} {pos : Option ℕ} (reached : Reached jhash ncpu s)
    (here : s.pc t = .hook p (.walking dev left pos)) (free : s.shared.putting p.cpu = false)
    (linked : Linked s.shared.nextOf pos rest) (atRest : goal .resting)
    (others : ∀ s', Reached jhash ncpu s' → s'.pc t = .hook p (.ignoring left) →
      s'.shared.putting p.cpu = false → Comes (captureAct jhash ncpu) (.next none) goal s' t) :
    Comes (captureAct jhash ncpu) (.next none) goal s t := by
  induction rest generalizing s pos with
  | nil =>
      have none : pos = Option.none := linked
      rw [none] at here
      apply reached.goesOn here rfl
      intro s' reached' shared here'
      apply comes_deciding reached' here' _ atRest others
      rw [shared]
      exact free
  | cons q rest ih =>
      rcases linked with ⟨same, second, links, linked⟩
      rw [same] at here
      rcases Option.map_eq_some_iff.mp links with ⟨node, present, next⟩
      by_cases found : node.entry.isFor dev.name.toList (devHash jhash dev.name.toList)
      · apply reached.goesOn here (by simp only [hookNext, present, if_pos found]; rfl)
        intro s' reached' shared here'
        apply comes_deciding reached' here' _ atRest others
        rw [shared]
        exact free
      · apply reached.goesOn here (by simp only [hookNext, present, if_neg found]; rfl)
        intro s' reached' shared here'
        rw [next] at here'
        apply ih reached' here'
        · rw [shared]
          exact free
        · rw [shared]
          exact linked

theorem comes_heading {table : Option ℕ} (reached : Reached jhash ncpu s)
    (here : s.pc t = .hook p (.heading dev left table)) (free : s.shared.putting p.cpu = false)
    (atRest : goal .resting)
    (others : ∀ s', Reached jhash ncpu s' → s'.pc t = .hook p (.ignoring left) →
      s'.shared.putting p.cpu = false → Comes (captureAct jhash ncpu) (.next none) goal s' t) :
    Comes (captureAct jhash ncpu) (.next none) goal s t := by
  have usable := reached.usable t
  rw [here] at usable
  rcases Option.isSome_iff_exists.mp usable with ⟨heads, present⟩
  apply reached.goesOn here (by simp only [hookNext, present]; rfl)
  intro s' reached' shared here'
  rcases reached'.chains with ⟨chains, inv⟩
  rcases (inv.guests t p _ here').relies with ⟨visited, rest, -, linked⟩
  apply comes_walking reached' here' _ linked atRest others
  rw [shared]
  exact free

theorem comes_gating {table : Option ℕ} (reached : Reached jhash ncpu s)
    (here : s.pc t = .hook p (.gating dev left table)) (free : s.shared.putting p.cpu = false)
    (atRest : goal .resting)
    (others : ∀ s', Reached jhash ncpu s' → s'.pc t = .hook p (.ignoring left) →
      s'.shared.putting p.cpu = false → Comes (captureAct jhash ncpu) (.next none) goal s' t) :
    Comes (captureAct jhash ncpu) (.next none) goal s t := by
  apply reached.goesOn here rfl
  intro s' reached' shared here'
  have free' : s'.shared.putting p.cpu = false := by
    rw [shared]
    exact free
  split at here'
  · exact others s' reached' here' free'
  · exact comes_heading reached' here' free' atRest others

theorem comes_ignoring (reached : Reached jhash ncpu s) (here : s.pc t = .hook p (.ignoring left))
    (free : s.shared.putting p.cpu = false) (atRest : goal .resting) :
    Comes (captureAct jhash ncpu) (.next none) goal s t := by
  induction left generalizing s with
  | nil =>
      apply reached.goesOn here rfl
      intro s' reached' _ here'
      exact comes_returning reached' here' atRest
  | cons dev left ih =>
      apply reached.goesOn here rfl
      intro s' reached' shared here'
      apply comes_gating reached' here' _ atRest
      · exact fun s'' reached'' here'' free'' => ih reached'' here'' free''
      · rw [shared]
        exact free

/-- A packet goes on to the end while its CPU is free. -/
theorem comes_of_free (reached : Reached jhash ncpu s) (here : s.pc t = .hook p task)
    (free : s.shared.putting p.cpu = false) (atRest : goal .resting) :
    Comes (captureAct jhash ncpu) (.next none) goal s t := by
  have others : ∀ left, ∀ s', Reached jhash ncpu s' → s'.pc t = .hook p (.ignoring left) →
      s'.shared.putting p.cpu = false → Comes (captureAct jhash ncpu) (.next none) goal s' t :=
    fun left s' reached' here' free' => comes_ignoring reached' here' free' atRest
  cases task with
  | arrived =>
      apply reached.goesOn here rfl
      intro s' reached' shared here'
      split at here'
      · exact others _ s' reached' here' (by rw [shared]; exact free)
      · exact comes_returning reached' here' atRest
  | ignoring left => exact others left s reached here free
  | gating dev left table => exact comes_gating reached here free atRest (others left)
  | heading dev left table => exact comes_heading reached here free atRest (others left)
  | walking dev left pos =>
      rcases reached.chains with ⟨chains, inv⟩
      rcases (inv.guests t p _ here).relies with ⟨visited, rest, -, linked⟩
      exact comes_walking reached here free linked atRest (others left)
  | deciding dev left found => exact comes_deciding reached here free atRest (others left)
  | filling => exact comes_filling reached here free atRest
  | entering info => exact comes_entering reached here free atRest
  | disabling info => exact comes_disabling reached here free atRest
  | returning => exact comes_returning reached here atRest
  | queueing info fifo => exact comes_queueing reached here atRest
  | counting put fifo => exact comes_counting reached here atRest
  | counted put fifo pkts => exact comes_counted reached here atRest
  | alarming fifo => exact comes_alarming reached here atRest
  | leaving => exact comes_leaving reached here atRest

end Packets

/-! ## The client -/

section Client

variable {task : CaptureTask} {c' : Capture} {pc' : CapturePc} {goal : CapturePc → Prop}
  {names rest : List Devname} {name : Devname}

/-- No packet is in a hook any more. -/
structure Quiet (jhash : List UInt8 → UInt32 → UInt32) (ncpu : ℕ) (s : Captures) : Prop where
  reached : Reached jhash ncpu s
  alone : ∀ t ≠ 0, s.pc t = .resting

theorem Quiet.running (quiet : Quiet jhash ncpu s) (hook : ℕ) : s.shared.running hook = 0 := by
  rcases quiet.reached.chains with ⟨chains, inv⟩
  apply (inv.counts hook).eq_zero_iff.mpr
  rw [Set.eq_empty_iff_forall_notMem]
  intro t inHook
  rw [mem_inside] at inHook
  by_cases zero : t = 0
  · have client := (inv.one t).mpr zero
    cases here : s.pc t with
    | client task =>
        rw [here] at inHook
        exact inHook
    | _ =>
        rw [here] at client
        exact client
  · rw [quiet.alone t zero] at inHook
    exact inHook

/-- One step of the client, with what it leads to. -/
theorem Quiet.goesOn (quiet : Quiet jhash ncpu s) (here : s.pc 0 = .client task)
    (next : captureNext jhash ncpu s.shared none task = (c', pc'))
    (later : ∀ s', Quiet jhash ncpu s' → s'.shared = c' → s'.pc 0 = pc' →
      Comes (captureAct jhash ncpu) (.next none) goal s' 0) :
    Comes (captureAct jhash ncpu) (.next none) goal s 0 := by
  apply comes_of_step
  have moved : captureAct jhash ncpu s.shared (s.pc 0) (.next none) = (c', pc') := by
    rw [here]
    exact next
  apply later
  · refine ⟨quiet.reached.step (0, .next none), ?_⟩
    intro t other
    rw [show (Interleaving.step _ s (0, CaptureAct.next none)).pc t = _ from pc_move_of_ne other]
    exact quiet.alone t other
  · rw [shared_step, moved]
  · rw [show (Interleaving.step _ s (0, CaptureAct.next none)).pc 0 = _ from pc_move_self, moved]

theorem Quiet.usable (quiet : Quiet jhash ncpu s) (here : s.pc 0 = .client task) :
    task.Usable s.shared := by
  have usable := quiet.reached.usable 0
  rw [here] at usable
  exact usable

/-! The release -/

theorem comes_forgetting (quiet : Quiet jhash ncpu s) (here : s.pc 0 = .client .forgetting)
    (atClosed : goal (.client .closed)) :
    Comes (captureAct jhash ncpu) (.next none) goal s 0 := by
  apply quiet.goesOn here rfl
  intro s' _ _ here'
  apply comes_here
  rw [here']
  exact atClosed

/-- The nodes of a bucket are freed one after the other. -/
theorem comes_clearing_bucket {bucket table : ℕ} {heads : ℕ → Option ℕ} {list : List ℕ}
    (quiet : Quiet jhash ncpu s) (here : s.pc 0 = .client (.clearing bucket))
    (small : bucket < 2 ^ devnameHashBits) (tabled : s.shared.table = some (table, heads))
    (linked : Linked s.shared.nextOf (heads bucket) list) (nodup : list.Nodup)
    (others : ∀ s', Quiet jhash ncpu s' → s'.pc 0 = .client (.clearing (bucket + 1)) →
      Comes (captureAct jhash ncpu) (.next none) goal s' 0) :
    Comes (captureAct jhash ncpu) (.next none) goal s 0 := by
  induction list generalizing s heads with
  | nil =>
      have first : heads bucket = none := linked
      apply quiet.goesOn here (by simp only [captureNext, tabled, if_pos small, first]; rfl)
      intro s' quiet' _ here'
      exact others s' quiet' here'
  | cons q rest ih =>
      rcases linked with ⟨first, second, links, linked⟩
      rcases Option.map_eq_some_iff.mp links with ⟨node, present, next⟩
      apply quiet.goesOn here (by simp only [captureNext, tabled, if_pos small, first]; rfl)
      intro s' quiet' shared here'
      rw [← shared] at tabled present linked
      apply quiet'.goesOn here' (by simp only [captureNext, tabled, present]; rfl)
      intro s'' quiet'' shared' here''
      have tabled' : s''.shared.table = some (table, Function.update heads bucket node.next) := by
        rw [shared', table_eq_some_iff]
        refine ⟨(table_eq_some_iff.mp tabled).1, ?_⟩
        simp [Capture.setHead]
      refine ih quiet'' here'' tabled' ?_ (List.nodup_cons.mp nodup).2
      rw [Function.update_self, next]
      apply linked.congr
      intro other member
      have differ : other ≠ q := by
        intro same
        rw [same] at member
        exact (List.nodup_cons.mp nodup).1 member
      rw [shared']
      simp only [Capture.nextOf, Capture.setHead, Capture.setNode, Function.update_of_ne differ]

theorem comes_clearing {bucket : ℕ} (quiet : Quiet jhash ncpu s)
    (here : s.pc 0 = .client (.clearing bucket)) (atClosed : goal (.client .closed)) :
    Comes (captureAct jhash ncpu) (.next none) goal s 0 := by
  induction left : 2 ^ devnameHashBits - bucket generalizing s bucket with
  | zero =>
      rcases Option.isSome_iff_exists.mp (quiet.usable here) with ⟨⟨table, heads⟩, tabled⟩
      have done : ¬bucket < 2 ^ devnameHashBits := by omega
      apply quiet.goesOn here (by simp only [captureNext, tabled, if_neg done]; rfl)
      intro s' quiet' _ here'
      exact comes_forgetting quiet' here' atClosed
  | succ left ih =>
      rcases Option.isSome_iff_exists.mp (quiet.usable here) with ⟨⟨table, heads⟩, tabled⟩
      rcases quiet.reached.chains with ⟨chains, inv⟩
      have small : bucket < 2 ^ devnameHashBits := by omega
      have nodup : (chains bucket).Nodup := by
        have all := inv.custody.nodup
        rw [Buckets.entries, List.nodup_flatMap] at all
        exact all.1 bucket (List.mem_range.mpr small)
      have linked := inv.memory.linked table heads tabled bucket
      apply comes_clearing_bucket quiet here small tabled linked nodup
      exact fun s' quiet' here' => ih quiet' here' (by omega)

theorem comes_freeing {bucket pos : ℕ} (quiet : Quiet jhash ncpu s)
    (here : s.pc 0 = .client (.freeing bucket pos)) (atClosed : goal (.client .closed)) :
    Comes (captureAct jhash ncpu) (.next none) goal s 0 := by
  have usable := quiet.usable here
  rcases Option.isSome_iff_exists.mp usable.1 with ⟨⟨table, heads⟩, tabled⟩
  rcases Option.isSome_iff_exists.mp usable.2 with ⟨node, present⟩
  apply quiet.goesOn here (by simp only [captureNext, tabled, present]; rfl)
  intro s' quiet' _ here'
  exact comes_clearing quiet' here' atClosed

theorem comes_exitQueue (quiet : Quiet jhash ncpu s) (here : s.pc 0 = .client .exitQueue)
    (atClosed : goal (.client .closed)) :
    Comes (captureAct jhash ncpu) (.next none) goal s 0 := by
  cases queue : s.shared.ipFifo with
  | none =>
      apply quiet.goesOn here (by simp only [captureNext, queue]; rfl)
      intro s' quiet' _ here'
      exact comes_clearing quiet' here' atClosed
  | some q =>
      rcases Option.isSome_iff_exists.mp (quiet.usable here q queue) with ⟨cpus, present⟩
      apply quiet.goesOn here (by simp only [captureNext, queue, present]; rfl)
      intro s' quiet' _ here'
      exact comes_clearing quiet' here' atClosed

theorem comes_synchronizing {hook : ℕ} (quiet : Quiet jhash ncpu s)
    (here : s.pc 0 = .client (.synchronizing hook)) (atClosed : goal (.client .closed)) :
    Comes (captureAct jhash ncpu) (.next none) goal s 0 := by
  induction hook generalizing s with
  | zero =>
      apply quiet.goesOn here (by simp only [captureNext, quiet.running 0, if_true]; rfl)
      intro s' quiet' _ here'
      exact comes_exitQueue quiet' here' atClosed
  | succ hook ih =>
      apply quiet.goesOn here (by
        simp only [captureNext, quiet.running (hook + 1), if_true, Nat.succ_ne_zero, if_false]
        rfl)
      intro s' quiet' _ here'
      apply quiet'.goesOn here' rfl
      intro s'' quiet'' _ here''
      exact ih quiet'' here''

theorem comes_unregistering {hook : ℕ} (quiet : Quiet jhash ncpu s)
    (here : s.pc 0 = .client (.unregistering hook)) (atClosed : goal (.client .closed)) :
    Comes (captureAct jhash ncpu) (.next none) goal s 0 := by
  apply quiet.goesOn here rfl
  intro s' quiet' _ here'
  exact comes_synchronizing quiet' here' atClosed

/-! The requests -/

theorem comes_ready (here : s.pc 0 = .client .ready) (atReady : goal (.client .ready)) :
    Comes (captureAct jhash ncpu) (.next none) goal s 0 := by
  apply comes_here
  rw [here]
  exact atReady

theorem comes_restoring {new : DevState} (quiet : Quiet jhash ncpu s)
    (here : s.pc 0 = .client (.restoring new)) (atReady : goal (.client .ready)) :
    Comes (captureAct jhash ncpu) (.next none) goal s 0 := by
  apply quiet.goesOn here rfl
  intro s' _ _ here'
  exact comes_ready here' atReady

theorem comes_registering {hook : ℕ} (quiet : Quiet jhash ncpu s)
    (here : s.pc 0 = .client (.registering hook)) (atReady : goal (.client .ready)) :
    Comes (captureAct jhash ncpu) (.next none) goal s 0 := by
  induction left : 6 - hook generalizing s hook with
  | zero =>
      have done : ¬hook < 6 := by omega
      apply quiet.goesOn here (by simp only [captureNext, if_neg done]; rfl)
      intro s' _ _ here'
      exact comes_ready here' atReady
  | succ left ih =>
      have more : hook < 6 := by omega
      apply quiet.goesOn here (by simp only [captureNext, if_pos more]; rfl)
      intro s' quiet' _ here'
      exact ih quiet' here' (by omega)

theorem comes_allocating (quiet : Quiet jhash ncpu s)
    (here : s.pc 0 = .client (.allocating name rest))
    (others : ∀ s', Quiet jhash ncpu s' → s'.pc 0 = .client (.naming rest) →
      Comes (captureAct jhash ncpu) (.next none) goal s' 0) :
    Comes (captureAct jhash ncpu) (.next none) goal s 0 := by
  apply quiet.goesOn here rfl
  intro s' quiet' _ here'
  exact others s' quiet' here'

theorem comes_seeking {pos : Option ℕ} {list : List ℕ} (quiet : Quiet jhash ncpu s)
    (here : s.pc 0 = .client (.seeking name rest pos)) (linked : Linked s.shared.nextOf pos list)
    (others : ∀ s', Quiet jhash ncpu s' → s'.pc 0 = .client (.naming rest) →
      Comes (captureAct jhash ncpu) (.next none) goal s' 0) :
    Comes (captureAct jhash ncpu) (.next none) goal s 0 := by
  induction list generalizing s pos with
  | nil =>
      have none : pos = Option.none := linked
      rw [none] at here
      apply quiet.goesOn here rfl
      intro s' quiet' _ here'
      exact comes_allocating quiet' here' others
  | cons q list ih =>
      rcases linked with ⟨same, second, links, linked⟩
      rw [same] at here
      rcases Option.map_eq_some_iff.mp links with ⟨node, present, next⟩
      by_cases found : node.entry.isFor (namesFrom name rest) (devHash jhash (namesFrom name rest))
      · apply quiet.goesOn here (by simp only [captureNext, present, if_pos found]; rfl)
        intro s' quiet' _ here'
        exact others s' quiet' here'
      · apply quiet.goesOn here (by simp only [captureNext, present, if_neg found]; rfl)
        intro s' quiet' shared here'
        rw [next] at here'
        apply ih quiet' here'
        rw [shared]
        exact linked

theorem comes_naming (quiet : Quiet jhash ncpu s) (here : s.pc 0 = .client (.naming names))
    (atReady : goal (.client .ready)) :
    Comes (captureAct jhash ncpu) (.next none) goal s 0 := by
  induction names generalizing s with
  | nil =>
      apply quiet.goesOn here rfl
      intro s' _ _ here'
      exact comes_ready here' atReady
  | cons name rest ih =>
      rcases Option.isSome_iff_exists.mp (quiet.usable here) with ⟨⟨table, heads⟩, tabled⟩
      apply quiet.goesOn here (by simp only [captureNext, tabled]; rfl)
      intro s' quiet' shared here'
      rcases quiet.reached.chains with ⟨chains, inv⟩
      have linked := inv.memory.linked table heads tabled (bucketOf jhash name rest)
      rw [← shared] at linked
      apply comes_seeking quiet' here' linked
      exact fun s'' quiet'' here'' => ih quiet'' here''

theorem comes_publishing {newnode : ℕ} (quiet : Quiet jhash ncpu s)
    (here : s.pc 0 = .client (.publishing name rest newnode)) (atReady : goal (.client .ready)) :
    Comes (captureAct jhash ncpu) (.next none) goal s 0 := by
  rcases Option.isSome_iff_exists.mp (quiet.usable here) with ⟨⟨table, heads⟩, tabled⟩
  apply quiet.goesOn here (by simp only [captureNext, tabled]; rfl)
  intro s' quiet' _ here'
  exact comes_naming quiet' here' atReady

theorem comes_copying {args : FetchArgs} {copied : List IpKeyInfo} (quiet : Quiet jhash ncpu s)
    (here : s.pc 0 = .client (.copying args copied)) (atReady : goal (.client .ready)) :
    Comes (captureAct jhash ncpu) (.next none) goal s 0 := by
  apply quiet.goesOn here rfl
  intro s' quiet' _ here'
  exact comes_restoring quiet' here' atReady

theorem comes_moved {args : FetchArgs} {copied : List IpKeyInfo} (quiet : Quiet jhash ncpu s)
    (here : s.pc 0 = .client (.moved args copied)) (atReady : goal (.client .ready)) :
    Comes (captureAct jhash ncpu) (.next none) goal s 0 := by
  apply quiet.goesOn here rfl
  intro s' quiet' _ here'
  exact comes_copying quiet' here' atReady

theorem comes_moving {args : FetchArgs} {cpu q : ℕ} {copied : List IpKeyInfo} {infonum : ℕ}
    {cpus : List CpuFifo} (quiet : Quiet jhash ncpu s)
    (here : s.pc 0 = .client (.moving args cpu copied infonum))
    (queue : s.shared.cpuFifos s.shared.ipFifo = some (q, cpus)) (atReady : goal (.client .ready)) :
    Comes (captureAct jhash ncpu) (.next none) goal s 0 := by
  induction left : cpus.length - cpu generalizing s cpu copied infonum cpus with
  | zero =>
      have absent : cpus[cpu]? = none := List.getElem?_eq_none (by omega)
      apply quiet.goesOn here (by simp only [captureNext, queue, absent]; rfl)
      intro s' quiet' _ here'
      exact comes_moved quiet' here' atReady
  | succ left ih =>
      have possible : cpu < cpus.length := by omega
      have present := List.getElem?_eq_getElem possible
      by_cases empty : cpus[cpu].fifo.items = []
      · apply quiet.goesOn here (by simp only [captureNext, queue, present, if_pos empty]; rfl)
        intro s' quiet' shared here'
        rw [← shared] at queue
        exact ih quiet' here' queue (by omega)
      · have fits := (quiet.usable here).2
        have within : ¬1024 < (copied ++ (cpus[cpu].fifo.out infonum).1).length := by
          simp only [Kfifo.out, List.length_append, List.length_take]
          omega
        apply quiet.goesOn here (by
          simp only [captureNext, queue, present, if_neg empty, if_neg within]
          exact (apply_ite (Prod.mk _) _ _ _).symm)
        intro s' quiet' shared here'
        have queue' := cpuFifos_setFifo queue cpu
          { cpus[cpu] with fifo := (cpus[cpu].fifo.out infonum).2 }
        rw [← shared] at queue'
        split at here'
        · exact comes_moved quiet' here' atReady
        · apply ih quiet' here' queue'
          rw [List.length_set]
          omega

theorem comes_fetching {args : FetchArgs} (quiet : Quiet jhash ncpu s)
    (here : s.pc 0 = .client (.fetching args)) (atReady : goal (.client .ready)) :
    Comes (captureAct jhash ncpu) (.next none) goal s 0 := by
  by_cases refused : args.Refused
  · apply quiet.goesOn here (by simp only [captureNext, if_pos refused]; rfl)
    intro s' quiet' _ here'
    exact comes_restoring quiet' here' atReady
  · by_cases queue : s.shared.ipFifo = none
    · apply quiet.goesOn here (by simp only [captureNext, if_neg refused, if_pos queue]; rfl)
      intro s' quiet' _ here'
      exact comes_copying quiet' here' atReady
    · apply quiet.goesOn here (by simp only [captureNext, if_neg refused, if_neg queue]; rfl)
      intro s' quiet' _ here'
      rcases Option.isSome_iff_exists.mp (quiet'.usable here').1 with ⟨⟨q, cpus⟩, present⟩
      exact comes_moving quiet' here' present atReady

theorem comes_configuring {args : SetArgs} (quiet : Quiet jhash ncpu s)
    (here : s.pc 0 = .client (.configuring args)) (atReady : goal (.client .ready)) :
    Comes (captureAct jhash ncpu) (.next none) goal s 0 := by
  by_cases refused : args.Refused s.shared
  · apply quiet.goesOn here (by simp only [captureNext, if_pos refused]; rfl)
    intro s' quiet' _ here'
    exact comes_restoring quiet' here' atReady
  · apply quiet.goesOn here (by simp only [captureNext, if_neg refused]; rfl)
    intro s' quiet' _ here'
    exact comes_naming quiet' here' atReady

theorem comes_linking {newnode : ℕ} (quiet : Quiet jhash ncpu s)
    (here : s.pc 0 = .client (.linking name rest newnode)) (atReady : goal (.client .ready)) :
    Comes (captureAct jhash ncpu) (.next none) goal s 0 := by
  have usable := quiet.usable here
  rcases Option.isSome_iff_exists.mp usable.1 with ⟨⟨table, heads⟩, tabled⟩
  rcases Option.isSome_iff_exists.mp usable.2 with ⟨node, present⟩
  apply quiet.goesOn here (by simp only [captureNext, tabled, present]; rfl)
  intro s' quiet' _ here'
  exact comes_publishing quiet' here' atReady

/-- The client finishes what it does; no allocation has to succeed for it. -/
theorem comes_of_quiet (quiet : Quiet jhash ncpu s) (here : s.pc 0 = .client task)
    (atClosed : goal (.client .closed)) (atReady : goal (.client .ready)) :
    Comes (captureAct jhash ncpu) (.next none) goal s 0 := by
  cases task with
  | closed =>
      apply comes_here
      rw [here]
      exact atClosed
  | initTable vmalloc =>
      apply quiet.goesOn here rfl
      intro s' _ _ here'
      apply comes_here
      rw [here']
      exact atClosed
  | initQueue vmalloc =>
      apply quiet.goesOn here rfl
      intro s' quiet' _ here'
      exact comes_clearing quiet' here' atClosed
  | registering hook => exact comes_registering quiet here atReady
  | ready => exact comes_ready here atReady
  | configuring args => exact comes_configuring quiet here atReady
  | naming names => exact comes_naming quiet here atReady
  | seeking name rest pos =>
      rcases quiet.reached.chains with ⟨chains, inv⟩
      have relies := inv.memory.relies
      rw [inv.task_eq here] at relies
      rcases relies with ⟨visited, list, -, linked⟩
      apply comes_seeking quiet here linked
      exact fun s' quiet' here' => comes_naming quiet' here' atReady
  | allocating name rest =>
      apply comes_allocating quiet here
      exact fun s' quiet' here' => comes_naming quiet' here' atReady
  | linking name rest newnode => exact comes_linking quiet here atReady
  | publishing name rest newnode => exact comes_publishing quiet here atReady
  | fetching args => exact comes_fetching quiet here atReady
  | moving args cpu copied infonum =>
      rcases Option.isSome_iff_exists.mp (quiet.usable here).1 with ⟨⟨q, cpus⟩, present⟩
      exact comes_moving quiet here present atReady
  | moved args copied => exact comes_moved quiet here atReady
  | copying args copied => exact comes_copying quiet here atReady
  | restoring new => exact comes_restoring quiet here atReady
  | unregistering hook => exact comes_unregistering quiet here atClosed
  | synchronizing hook => exact comes_synchronizing quiet here atClosed
  | exitQueue => exact comes_exitQueue quiet here atClosed
  | clearing bucket => exact comes_clearing quiet here atClosed
  | freeing bucket pos => exact comes_freeing quiet here atClosed
  | forgetting => exact comes_forgetting quiet here atClosed

end Client

/-! ## Runs -/

/-- The thread has no packet, or is the client between two calls. -/
def CapturePc.AtRest : CapturePc → Prop
  | resting | client .closed | client .ready => True
  | _ => False

/-- As long as not all are at rest, some thread can come to rest alone. -/
theorem exists_comes (reached : Reached jhash ncpu s) (busy : ∃ t, ¬(s.pc t).AtRest) :
    ∃ t, ¬(s.pc t).AtRest ∧ Comes (captureAct jhash ncpu) (.next none) CapturePc.AtRest s t := by
  rcases reached.chains with ⟨chains, inv⟩
  by_cases taken : ∃ t k, (s.pc t).cpu = some k
  · rcases taken with ⟨t, k, has⟩
    refine ⟨t, ?_, comes_of_cpu reached has trivial⟩
    intro atRest
    cases here : s.pc t with
    | hook p task =>
        rw [here] at atRest
        exact atRest
    | _ =>
        rw [here] at has
        exact absurd has (by simp [CapturePc.cpu])
  · have free : ∀ k, s.shared.putting k = false := by
      intro k
      rw [← Bool.not_eq_true]
      exact fun on => taken ((reached.flagged k on).imp fun t has => ⟨k, has⟩)
    by_cases hooked : ∃ t p task, s.pc t = .hook p task
    · rcases hooked with ⟨t, p, task, here⟩
      refine ⟨t, ?_, comes_of_free reached here (free p.cpu) trivial⟩
      rw [here]
      exact id
    · -- Only the client is left.
      rcases busy with ⟨t, working⟩
      have alone : ∀ u ≠ 0, s.pc u = .resting := by
        intro u other
        cases here : s.pc u with
        | resting => rfl
        | hook p task => exact absurd ⟨u, p, task, here⟩ hooked
        | client task => exact absurd (inv.eq_zero here) other
        | fault => exact absurd here (inv.sound u)
      have zero : t = 0 := by
        by_contra other
        rw [alone t other] at working
        exact working trivial
      rw [zero] at working
      have client := (inv.one 0).mpr rfl
      cases here : s.pc 0 with
      | client task =>
          exact ⟨0, working, comes_of_quiet ⟨reached, alone⟩ here trivial trivial⟩
      | _ =>
          rw [here] at client
          exact absurd client id

section Runs

variable (jhash : List UInt8 → UInt32 → UInt32) (ncpu : ℕ)

theorem reached_step (s : Captures) (event : ℕ × CaptureAct) (reached : Reached jhash ncpu s) :
    Reached jhash ncpu (captureStep jhash ncpu s event) :=
  reached.step event

theorem reached_run (events : List (ℕ × CaptureAct)) :
    Reached jhash ncpu (run (captureStep jhash ncpu) loadedCapture events) := by
  apply invariant_of_step (reached_step jhash ncpu)
  refine ⟨⟨_, captureInv_loaded jhash ncpu⟩, ?_⟩
  intro k on
  exact absurd on (by simp [loadedCapture])

variable {jhash ncpu}

/-- A client that has the device open can close it once no packet is in a hook. -/
theorem exists_run_to_closed (quiet : Quiet jhash ncpu s) (here : s.pc 0 = .client .ready) :
    ∃ more : List (ℕ × CaptureAct), (∀ one ∈ more, one.2 = .next none ∨ one = (0, .release)) ∧
      (run (captureStep jhash ncpu) s more).pc 0 = .client .closed ∧
      ∀ t ≠ 0, (run (captureStep jhash ncpu) s more).pc t = .resting := by
  have released : (captureStep jhash ncpu s (0, .release)).pc 0 = .client (.unregistering 5) := by
    rw [show (captureStep jhash ncpu s (0, .release)).pc 0 = _ from pc_move_self, here]
    rfl
  have quiet' : Quiet jhash ncpu (captureStep jhash ncpu s (0, .release)) := by
    refine ⟨quiet.reached.step (0, .release), ?_⟩
    intro t other
    rw [show (captureStep jhash ncpu s (0, .release)).pc t = _ from pc_move_of_ne other]
    exact quiet.alone t other
  have closes : Comes (captureAct jhash ncpu) (.next none) (fun pc => pc = .client .closed)
      (captureStep jhash ncpu s (0, .release)) 0 := comes_unregistering quiet' released rfl
  rcases closes with ⟨count, closed⟩
  refine ⟨(0, .release) :: List.replicate count (0, .next none), ?_, closed, ?_⟩
  · intro one member
    rcases List.mem_cons.mp member with first | later
    · exact Or.inr first
    · rw [List.eq_of_mem_replicate later]
      exact Or.inl rfl
  · intro t other
    rw [run_cons, pc_run_of_not_mem]
    · exact quiet'.alone t other
    · rw [List.map_replicate]
      exact fun named => other (List.eq_of_mem_replicate named)

variable (jhash ncpu)

/-- From every state that is reached, all packets and the client can finish what they do, and
the device can be closed then: there is no deadlock between a put that waits for its CPU, a
release that waits for the hooks, and the packets in them. -/
theorem can_always_close (events : List (ℕ × CaptureAct)) :
    ∃ more : List (ℕ × CaptureAct), (∀ one ∈ more, one.2 = .next none ∨ one = (0, .release)) ∧
      (run (captureStep jhash ncpu) loadedCapture (events ++ more)).pc 0 = .client .closed ∧
      ∀ t ≠ 0, (run (captureStep jhash ncpu) loadedCapture (events ++ more)).pc t = .resting := by
  have others : ∀ t ∉ 0 :: events.map Prod.fst,
      ((run (captureStep jhash ncpu) loadedCapture events).pc t).AtRest := by
    intro t outside
    rw [List.mem_cons, not_or] at outside
    rw [pc_run_of_not_mem outside.2, show loadedCapture.pc t = .resting from if_neg outside.1]
    trivial
  rcases exists_run_to_rest (reached_step jhash ncpu) (fun s isReached => exists_comes isReached)
    (0 :: events.map Prod.fst) (reached_run jhash ncpu events) others with ⟨first, only, atRest⟩
  rw [← run_append] at atRest
  have reached := reached_run jhash ncpu (events ++ first)
  rcases reached.chains with ⟨chains, inv⟩
  have alone : ∀ t ≠ 0, (run (captureStep jhash ncpu) loadedCapture (events ++ first)).pc t =
      .resting := by
    intro t other
    have rests := atRest t
    cases here : (run (captureStep jhash ncpu) loadedCapture (events ++ first)).pc t with
    | resting => rfl
    | client task => exact absurd (inv.eq_zero here) other
    | _ =>
        rw [here] at rests
        exact absurd rests id
  have rests := atRest 0
  have client := (inv.one 0).mpr rfl
  cases here : (run (captureStep jhash ncpu) loadedCapture (events ++ first)).pc 0 with
  | client task =>
      rw [here] at rests
      cases task with
      | closed => exact ⟨first, fun one member => Or.inl (only one member), here, alone⟩
      | ready =>
          rcases exists_run_to_closed ⟨reached, alone⟩ here with ⟨more, allowed, closed, resting⟩
          rw [← run_append, List.append_assoc] at closed
          simp only [← run_append, List.append_assoc] at resting
          refine ⟨first ++ more, ?_, closed, resting⟩
          intro one member
          rcases List.mem_append.mp member with before | after
          · exact Or.inl (only one before)
          · exact allowed one after
      | _ => exact absurd rests id
  | _ =>
      rw [here] at client
      exact absurd client id

end Runs

end Linguafranca.Ipshark
