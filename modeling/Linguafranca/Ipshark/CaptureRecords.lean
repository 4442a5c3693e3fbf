import Linguafranca.Ipshark.CaptureDecisions
import Mathlib.Data.List.Forall2

/-!
# Where the records of the packets are

Each record that a hook decides to put gets a ticket, its number among the decided records.
A ticket belongs to the packet until the record is put or refused; then the record waits in
the queue of its CPU until the client takes it, or the queue is freed. Beside the run of hooks
and client the tickets are kept at the place where they are, each at one place, and the
records there are those of the tickets, in order.

What a fetch takes leaves the queues for good, also when `copy_to_user` fails afterwards; the
batches that reach the user are told from those that do not.
-/

namespace Linguafranca.Ipshark

open Run Interleaving

/-- What one fetch took: the tickets, the records that it passes to `copy_to_user`, and whether
both calls of that copy everything. -/
structure Batch where
  tickets : List ℕ
  records : List IpKeyInfo
  copied : Bool

/-- The place of each ticket. Those of the queues that were freed have ended. -/
structure Tickets where
  held : ℕ → Option ℕ
  /-- With the number of records that were waiting on the CPU. -/
  refused : List (ℕ × ℕ)
  ended : List ℕ
  accepted : ℕ → List ℕ
  waiting : ℕ → List ℕ
  /-- What the client took, with the CPU. -/
  taken : List (ℕ × ℕ)
  copying : List ℕ
  fetched : List Batch

namespace Tickets

/-- The records taken from one CPU, in order. -/
def takenOf (l : Tickets) (cpu : ℕ) : List ℕ :=
  (l.taken.filter fun one => one.1 = cpu).map Prod.snd

/-- A packet has filled its record. -/
def issue (l : Tickets) (t ticket : ℕ) : Tickets :=
  { l with held := Function.update l.held t (some ticket) }

/-- The record is accepted by the queue of a CPU. -/
def put (l : Tickets) (t cpu ticket : ℕ) : Tickets :=
  { l with
    held := Function.update l.held t none
    accepted := Function.update l.accepted cpu (l.accepted cpu ++ [ticket])
    waiting := Function.update l.waiting cpu (l.waiting cpu ++ [ticket]) }

/-- The queue of the CPU was full. -/
def refuse (l : Tickets) (t cpu ticket : ℕ) : Tickets :=
  { l with
    held := Function.update l.held t none
    refused := l.refused ++ [(ticket, (l.waiting cpu).length)] }

/-- A fetch takes the first records of the queue of a CPU. -/
def take (l : Tickets) (cpu count : ℕ) : Tickets :=
  { l with
    waiting := Function.update l.waiting cpu ((l.waiting cpu).drop count)
    taken := l.taken ++ ((l.waiting cpu).take count).map fun ticket => (cpu, ticket)
    copying := l.copying ++ (l.waiting cpu).take count }

/-- A fetch ends: what it took becomes a batch. -/
def fetch (l : Tickets) (args : FetchArgs) (copied : List IpKeyInfo) : Tickets :=
  { l with
    copying := []
    fetched := l.fetched ++ [⟨l.copying, copied, args.copyArray = 0 ∧ args.copyBack = 0⟩] }

/-- The tickets whose records all reached the user. -/
def delivered (l : Tickets) : List ℕ :=
  (l.fetched.filter fun batch => batch.copied).flatMap Batch.tickets

/-- The tickets of the fetches whose copies failed. -/
def uncopied (l : Tickets) : List ℕ :=
  (l.fetched.filter fun batch => !batch.copied).flatMap Batch.tickets

/-- The queue is torn down with the records in it. -/
def stop (l : Tickets) (ncpu : ℕ) : Tickets :=
  { l with
    ended := l.ended ++ Buckets.entries ncpu l.accepted
    accepted := fun _ => []
    waiting := fun _ => []
    taken := []
    copying := []
    fetched := [] }

/-- What a step does to the tickets, when so many were issued before it. -/
def settle (ncpu issued t : ℕ) (pc pc' : CapturePc) (l : Tickets) : Tickets :=
  match pc, pc' with
  | .hook _ .filling, .hook _ (.entering _) => l.issue t issued
  | .hook p (.queueing _ _), .hook _ (.counting put _) =>
      match l.held t with
      | none => l
      | some ticket => if put then l.put t p.cpu ticket else l.refuse t p.cpu ticket
  | .client (.moving _ cpu copied _), .client (.moving _ _ copied' _)
  | .client (.moving _ cpu copied _), .client (.moved _ copied') =>
      l.take cpu (copied'.length - copied.length)
  | .client (.copying args copied), .client (.restoring _) => l.fetch args copied
  | .client .exitQueue, .client (.clearing _) => l.stop ncpu
  | _, _ => l

/-- The tickets that no packet has any more. -/
def settled (l : Tickets) (ncpu : ℕ) : List ℕ :=
  l.refused.map Prod.fst ++ l.ended ++ Buckets.entries ncpu l.accepted

end Tickets

/-- The records that were to be put. -/
def Journal.records (j : Journal) : List IpKeyInfo :=
  j.decisions.filterMap Decision.answer

/-- The record that is decided by a step, if it is to be put. -/
def decidedInfo (pc pc' : CapturePc) : Option IpKeyInfo :=
  (decisionOf pc pc').bind Prod.snd

/-- The journal of the packets and the tickets of their records. -/
structure CaptureLedger where
  journal : Journal
  tickets : Tickets

namespace CapturePc

/-- The record that a packet has still to put. -/
def info : CapturePc → Option IpKeyInfo
  | hook _ (.entering info) | hook _ (.disabling info) | hook _ (.queueing info _) => some info
  | _ => none

/-- The records that the client has taken in this fetch. -/
def copied : CapturePc → List IpKeyInfo
  | client (.moving _ _ copied _) | client (.moved _ copied) | client (.copying _ copied) => copied
  | _ => []

end CapturePc

section

variable (jhash : List UInt8 → UInt32 → UInt32) (ncpu : ℕ)

/-- The ledger after a step. -/
def ticketStep (s : Captures) (event : ℕ × CaptureAct) (l : CaptureLedger) : CaptureLedger where
  journal := journalStep jhash ncpu s event l.journal
  tickets := l.tickets.settle ncpu l.journal.records.length event.1 (s.pc event.1)
    ((captureStep jhash ncpu s event).pc event.1)

end

/-- The ticket of a record. -/
def Numbers (records : List IpKeyInfo) (ticket : ℕ) (info : IpKeyInfo) : Prop :=
  records[ticket]? = some info

/-- The queue of each CPU has the records of the tickets that wait there. -/
structure Queued (ncpu : ℕ) (c : Capture) (records : List IpKeyInfo) (l : Tickets) : Prop where
  fifos : ∀ q cpus, c.cpuFifos c.ipFifo = some (q, cpus) → ∀ cpu f, cpus[cpu]? = some f →
    f.fifo.size = ipFifoSize ∧ List.Forall₂ (Numbers records) (l.waiting cpu) f.fifo.items
  idle : c.ipFifo = none → ∀ cpu, l.accepted cpu = []
  beyond : ∀ cpu, ncpu ≤ cpu → l.accepted cpu = []
  order : ∀ cpu, l.accepted cpu = l.takenOf cpu ++ l.waiting cpu
  full : ∀ one ∈ l.refused, one.2 = ipFifoSize

/-- What the fetches took is what they pass to `copy_to_user`. -/
structure Fetches (records copied : List IpKeyInfo) (l : Tickets) : Prop where
  taken : l.taken.map Prod.snd = l.fetched.flatMap Batch.tickets ++ l.copying
  copying : List.Forall₂ (Numbers records) l.copying copied
  fetched : ∀ one ∈ l.fetched, List.Forall₂ (Numbers records) one.tickets one.records

/-- Each record is where its ticket is, and each ticket is in one place. -/
structure TicketsInv (ncpu : ℕ) (s : Captures) (records : List IpKeyInfo) (l : Tickets) :
    Prop where
  held : ∀ t, Option.Rel (Numbers records) (l.held t) (s.pc t).info
  queued : Queued ncpu s.shared records l
  fetches : Fetches records (s.pc 0).copied l
  custody : Custody {ticket | ticket < records.length} (l.settled ncpu) l.held fun _ => none

section Rules

variable {ncpu q cpu ticket : ℕ} {records copied : List IpKeyInfo} {l l' : Tickets}
  {c c' : Capture} {info : IpKeyInfo} {cpus : List CpuFifo} {f f' : CpuFifo}

theorem Numbers.grow (numbers : Numbers records ticket info) (more : List IpKeyInfo) :
    Numbers (records ++ more) ticket info := by
  rw [Numbers, List.getElem?_append_left (List.getElem?_eq_some_iff.mp numbers).1]
  exact numbers

theorem numbers_last (records : List IpKeyInfo) (info : IpKeyInfo) :
    Numbers (records ++ [info]) records.length info :=
  List.getElem?_concat_length

theorem rel_grow {one : Option ℕ} {two : Option IpKeyInfo}
    (numbered : Option.Rel (Numbers records) one two) (more : List IpKeyInfo) :
    Option.Rel (Numbers (records ++ more)) one two := by
  cases numbered with
  | none => exact Option.Rel.none
  | some numbers => exact Option.Rel.some (numbers.grow more)

theorem forall_grow {tickets : List ℕ} (numbered : List.Forall₂ (Numbers records) tickets copied)
    (more : List IpKeyInfo) : List.Forall₂ (Numbers (records ++ more)) tickets copied :=
  numbered.imp fun _ _ numbers => numbers.grow more

theorem Queued.grow (queued : Queued ncpu c records l) (more : List IpKeyInfo) :
    Queued ncpu c (records ++ more) l := by
  refine ⟨?_, queued.idle, queued.beyond, queued.order, queued.full⟩
  intro q cpus here cpu f present
  rcases queued.fifos q cpus here cpu f present with ⟨size, numbered⟩
  exact ⟨size, forall_grow numbered more⟩

theorem Fetches.grow (fetches : Fetches records copied l) (more : List IpKeyInfo) :
    Fetches (records ++ more) copied l :=
  ⟨fetches.taken, forall_grow fetches.copying more,
    fun one member => forall_grow (fetches.fetched one member) more⟩

/-- What is not of the queues changes. -/
theorem Queued.keep (queued : Queued ncpu c records l) (fifo : c'.ipFifo = c.ipFifo)
    (fifos : c'.fifos = c.fifos) : Queued ncpu c' records l := by
  refine ⟨?_, ?_, queued.beyond, queued.order, queued.full⟩
  · intro q cpus here
    apply queued.fifos q cpus
    rwa [Capture.cpuFifos, fifo, fifos] at here
  · rw [fifo]
    exact queued.idle

/-- The queue of one CPU changes with its tickets. -/
theorem Queued.setFifo (queued : Queued ncpu c records l)
    (here : c.cpuFifos c.ipFifo = some (q, cpus)) (present : cpus[cpu]? = some f)
    (own : f'.fifo.size = ipFifoSize ∧
      List.Forall₂ (Numbers records) (l'.waiting cpu) f'.fifo.items)
    (others : ∀ k ≠ cpu, l'.waiting k = l.waiting k)
    (beyond : ∀ k, ncpu ≤ k → l'.accepted k = [])
    (order : ∀ k, l'.accepted k = l'.takenOf k ++ l'.waiting k)
    (full : ∀ one ∈ l'.refused, one.2 = ipFifoSize) :
    Queued ncpu (c.setFifo q cpu cpus f') records l' := by
  refine ⟨?_, ?_, beyond, order, full⟩
  · intro q' cpus' here' k found present'
    rw [cpuFifos_setFifo here cpu f', Option.some.injEq, Prod.mk.injEq] at here'
    rw [← here'.2, List.getElem?_set] at present'
    by_cases same : cpu = k
    · have inside := (List.getElem?_eq_some_iff.mp present).1
      rw [if_pos same, if_pos inside, Option.some.injEq] at present'
      rw [← present', ← same]
      exact own
    · rw [if_neg same] at present'
      rw [others k (Ne.symm same)]
      exact queued.fifos q cpus here k found present'
  · intro none
    rw [show (c.setFifo q cpu cpus f').ipFifo = c.ipFifo from rfl,
      (cpuFifos_eq_some_iff.mp here).1] at none
    exact absurd none (by simp)

/-- A record is put behind the others of its CPU. -/
theorem Queued.put (queued : Queued ncpu c records l)
    (here : c.cpuFifos c.ipFifo = some (q, cpus)) (present : cpus[cpu]? = some f)
    (possible : cpu < ncpu) (room : f.fifo.items.length < f.fifo.size)
    (numbers : Numbers records ticket info) (t : ℕ) :
    Queued ncpu (c.setFifo q cpu cpus { f with fifo := (f.fifo.put info).2 }) records
      (l.put t cpu ticket) := by
  have old := queued.fifos q cpus here cpu f present
  refine queued.setFifo here present ⟨?_, ?_⟩ ?_ ?_ ?_ queued.full
  · rw [Kfifo.size_put]
    exact old.1
  · simp only [Tickets.put, Function.update_self, (Kfifo.put_of_room info room).2]
    exact List.rel_append old.2 (List.Forall₂.cons numbers List.Forall₂.nil)
  · intro k other
    simp only [Tickets.put, Function.update_of_ne other]
  · intro k most
    simp only [Tickets.put, Function.update_of_ne (Nat.ne_of_gt (lt_of_lt_of_le possible most))]
    exact queued.beyond k most
  · intro k
    by_cases same : k = cpu
    · simp only [Tickets.put, same, Function.update_self, queued.order cpu, List.append_assoc]
      rfl
    · simp only [Tickets.put, Function.update_of_ne same]
      exact queued.order k

/-- A record is refused when the queue of its CPU is full. -/
theorem Queued.refuse (queued : Queued ncpu c records l)
    (here : c.cpuFifos c.ipFifo = some (q, cpus)) (present : cpus[cpu]? = some f)
    (full : ¬f.fifo.items.length < f.fifo.size) (t ticket : ℕ) :
    Queued ncpu (c.setFifo q cpu cpus { f with fifo := (f.fifo.put info).2 }) records
      (l.refuse t cpu ticket) := by
  have old := queued.fifos q cpus here cpu f present
  have same : (f.fifo.put info).2 = f.fifo := by simp only [Kfifo.put, dif_neg full]
  rw [same]
  refine queued.setFifo here present old (fun _ _ => rfl) queued.beyond queued.order ?_
  intro one member
  rcases List.mem_append.mp member with before | last
  · exact queued.full one before
  · rw [List.mem_singleton.mp last]
    show (l.waiting cpu).length = ipFifoSize
    rw [old.2.length_eq, ← old.1]
    exact le_antisymm f.fifo.bounded (not_lt.mp full)

theorem takenOf_take (l : Tickets) (cpu count k : ℕ) :
    (l.take cpu count).takenOf k =
      l.takenOf k ++ if k = cpu then (l.waiting cpu).take count else [] := by
  have more : ∀ tickets : List ℕ,
      ((tickets.map fun ticket => (cpu, ticket)).filter fun one => one.1 = k).map Prod.snd =
        if k = cpu then tickets else [] := by
    intro tickets
    by_cases same : k = cpu
    · rw [if_pos same, List.filter_eq_self.mpr, List.map_map]
      · exact List.map_id tickets
      · intro one member
        rcases List.mem_map.mp member with ⟨ticket, -, rfl⟩
        exact decide_eq_true same.symm
    · rw [if_neg same, List.filter_eq_nil_iff.mpr]
      · rfl
      · intro one member
        rcases List.mem_map.mp member with ⟨ticket, -, rfl⟩
        exact fun found => same (of_decide_eq_true found).symm
  rw [Tickets.takenOf, Tickets.take, List.filter_append, List.map_append, more]
  rfl

/-- The client takes the records that waited longest on a CPU. -/
theorem Queued.take (queued : Queued ncpu c records l)
    (here : c.cpuFifos c.ipFifo = some (q, cpus)) (present : cpus[cpu]? = some f) (num : ℕ) :
    Queued ncpu (c.setFifo q cpu cpus { f with fifo := (f.fifo.out num).2 }) records
      (l.take cpu (f.fifo.out num).1.length) := by
  have old := queued.fifos q cpus here cpu f present
  have left : (f.fifo.out num).2.items = f.fifo.items.drop (f.fifo.out num).1.length := by
    have split := Kfifo.out_append f.fifo num
    rw [← split, List.drop_left]
  refine queued.setFifo here present ⟨old.1, ?_⟩ ?_ queued.beyond ?_ queued.full
  · rw [left]
    simp only [Tickets.take, Function.update_self]
    exact List.forall₂_drop _ old.2
  · intro k other
    simp only [Tickets.take, Function.update_of_ne other]
  · intro k
    rw [takenOf_take]
    by_cases same : k = cpu
    · rw [if_pos same, same]
      simp only [Tickets.take, Function.update_self, List.append_assoc, List.take_append_drop]
      exact queued.order cpu
    · rw [if_neg same, List.append_nil]
      simp only [Tickets.take, Function.update_of_ne same]
      exact queued.order k

/-- The queue is freed. -/
theorem Queued.stop (queued : Queued ncpu c records l) (none : c'.ipFifo = none) :
    Queued ncpu c' records (l.stop ncpu) := by
  refine ⟨?_, fun _ _ => rfl, fun _ _ => rfl, fun _ => rfl, queued.full⟩
  intro q cpus here
  rw [none] at here
  exact absurd here (by simp [Capture.cpuFifos])

/-- The queue is made with nothing in it. -/
theorem Queued.create (queued : Queued ncpu c records l) (none : c.ipFifo = none) (q : ℕ) :
    Queued ncpu
      { c with
        ipFifo := some q
        fifos := Function.update c.fifos q
          (some (List.replicate ncpu ⟨Kfifo.alloc ipFifoSize, false⟩)) } records l := by
  refine ⟨?_, fun absent => absurd absent (by simp), queued.beyond, queued.order, queued.full⟩
  intro q' cpus here cpu f present
  rcases cpuFifos_eq_some_iff.mp here with ⟨current, contents⟩
  rw [Option.some.injEq] at current
  simp only [← current, Function.update_self, Option.some.injEq] at contents
  rw [← contents] at present
  rw [List.eq_of_mem_replicate (List.mem_of_getElem? present)]
  have order := queued.order cpu
  rw [queued.idle none cpu] at order
  rw [(List.append_eq_nil_iff.mp order.symm).2]
  exact ⟨rfl, List.Forall₂.nil⟩

theorem Fetches.take (fetches : Fetches records copied l) {moved : List IpKeyInfo}
    (numbered : List.Forall₂ (Numbers records) ((l.waiting cpu).take moved.length) moved) :
    Fetches records (copied ++ moved) (l.take cpu moved.length) := by
  refine ⟨?_, List.rel_append fetches.copying numbered, fetches.fetched⟩
  simp only [Tickets.take, List.map_append, fetches.taken, List.append_assoc, List.map_map]
  congr 2
  exact List.map_id _

theorem Fetches.fetch (fetches : Fetches records copied l) (args : FetchArgs) :
    Fetches records [] (l.fetch args copied) := by
  refine ⟨?_, List.Forall₂.nil, ?_⟩
  · simp [Tickets.fetch, fetches.taken]
  · intro one member
    rcases List.mem_append.mp member with before | last
    · exact fetches.fetched one before
    · rw [List.mem_singleton.mp last]
      exact fetches.copying

/-- What the client took has reached the user, is lost, or is still being copied. -/
theorem Fetches.taken_perm (fetches : Fetches records copied l) :
    (l.taken.map Prod.snd).Perm (l.delivered ++ l.uncopied ++ l.copying) := by
  rw [fetches.taken]
  apply List.Perm.append_right
  rw [Tickets.delivered, Tickets.uncopied, ← List.flatMap_append]
  exact (List.filter_append_perm (fun batch : Batch => batch.copied) l.fetched).symm.flatMap_right _

theorem fetches_stop (records : List IpKeyInfo) (l : Tickets) (ncpu : ℕ) :
    Fetches records [] (l.stop ncpu) :=
  ⟨rfl, List.Forall₂.nil, fun _ member => absurd member List.not_mem_nil⟩

theorem settled_put (l : Tickets) (t ticket : ℕ) (possible : cpu < ncpu) :
    ((l.put t cpu ticket).settled ncpu).Perm (ticket :: l.settled ncpu) := by
  rcases Buckets.exists_entries l.accepted possible with ⟨rest, whole, updated⟩
  have placed : (Buckets.entries ncpu (l.put t cpu ticket).accepted).Perm
      (ticket :: Buckets.entries ncpu l.accepted) := by
    calc
      (Buckets.entries ncpu (l.put t cpu ticket).accepted).Perm
          ((l.accepted cpu ++ [ticket]) ++ rest) := updated _
      _ = l.accepted cpu ++ ticket :: rest := by simp
      List.Perm _ (ticket :: (l.accepted cpu ++ rest)) := List.perm_middle
      List.Perm _ (ticket :: Buckets.entries ncpu l.accepted) := whole.symm.cons ticket
  calc
    ((l.put t cpu ticket).settled ncpu).Perm
        (l.refused.map Prod.fst ++ l.ended ++ ticket :: Buckets.entries ncpu l.accepted) :=
      placed.append_left _
    List.Perm _ (ticket :: l.settled ncpu) := List.perm_middle

theorem settled_refuse (l : Tickets) (t cpu ticket : ℕ) :
    ((l.refuse t cpu ticket).settled ncpu).Perm (ticket :: l.settled ncpu) := by
  simp only [Tickets.settled, Tickets.refuse, List.map_append, List.map_cons, List.map_nil,
    List.append_assoc, List.singleton_append]
  exact List.perm_middle

theorem settled_stop (l : Tickets) (ncpu : ℕ) : (l.stop ncpu).settled ncpu = l.settled ncpu := by
  simp [Tickets.settled, Tickets.stop, Buckets.entries]

end Rules

/-! ## A step -/

section Step

variable {jhash : List UInt8 → UInt32 → UInt32} {ncpu : ℕ} {s : Captures} {l l' : Tickets}
  {records : List IpKeyInfo} {c' : Capture} {t : ℕ} {p : Packet} {hook hook' : HookTask}
  {pc' : CapturePc} {chains : ℕ → List ℕ}

/-- A packet goes on. -/
theorem TicketsInv.hook_move (inv : TicketsInv ncpu s records l) (other : t ≠ 0)
    (held : Option.Rel (Numbers records) (l'.held t) pc'.info)
    (others : ∀ u ≠ t, l'.held u = l.held u) (queued : Queued ncpu c' records l')
    (fetches : Fetches records (s.pc 0).copied l')
    (custody : Custody {ticket | ticket < records.length} (l'.settled ncpu) l'.held fun _ => none) :
    TicketsInv ncpu (s.move t c' pc') records l' := by
  refine ⟨?_, queued, ?_, custody⟩
  · intro u
    by_cases same : u = t
    · rw [same, pc_move_self]
      exact held
    · rw [others u same, pc_move_of_ne same]
      exact inv.held u
  · rw [pc_move_of_ne (Ne.symm other)]
    exact fetches

/-- A packet goes on, and the tickets stay where they are. -/
theorem TicketsInv.hook_keep (inv : TicketsInv ncpu s records l) (other : t ≠ 0)
    (info : pc'.info = (s.pc t).info) (queued : Queued ncpu c' records l) :
    TicketsInv ncpu (s.move t c' pc') records l := by
  apply inv.hook_move other _ (fun _ _ => rfl) queued inv.fetches inv.custody
  rw [info]
  exact inv.held t

/-- The client goes on. -/
theorem TicketsInv.client_move (inv : TicketsInv ncpu s records l) (zero : t = 0)
    (none : (s.pc t).info = none) (none' : pc'.info = Option.none) (held : l'.held = l.held)
    (queued : Queued ncpu c' records l') (fetches : Fetches records pc'.copied l')
    (settled : l'.settled ncpu = l.settled ncpu) :
    TicketsInv ncpu (s.move t c' pc') records l' := by
  refine ⟨?_, queued, ?_, ?_⟩
  · intro u
    rw [held]
    by_cases same : u = t
    · rw [same, pc_move_self, none', ← none]
      exact inv.held t
    · rw [pc_move_of_ne same]
      exact inv.held u
  · rw [← zero, pc_move_self]
    exact fetches
  · rw [settled, held]
    exact inv.custody

theorem exists_held (inv : TicketsInv ncpu s records l) {info : IpKeyInfo}
    (here : (s.pc t).info = some info) : ∃ ticket, l.held t = some ticket ∧
      Numbers records ticket info := by
  have held := inv.held t
  rw [here] at held
  cases mine : l.held t with
  | none =>
      rw [mine] at held
      cases held
  | some ticket =>
      rw [mine] at held
      cases held with
      | some numbers => exact ⟨ticket, rfl, numbers⟩

theorem held_eq_none (inv : TicketsInv ncpu s records l) (here : (s.pc t).info = none) :
    l.held t = none := by
  have held := inv.held t
  rw [here] at held
  cases mine : l.held t with
  | none => rfl
  | some ticket =>
      rw [mine] at held
      cases held

/-- A decided record gets the next ticket. -/
theorem TicketsInv.issue (inv : TicketsInv ncpu s records l) (other : t ≠ 0) {info : IpKeyInfo}
    (before : (s.pc t).info = none) (after : pc'.info = some info) :
    TicketsInv ncpu (s.move t s.shared pc') (records ++ [info]) (l.issue t records.length) := by
  have old : l.held t = none := held_eq_none inv before
  have live : {ticket | ticket < (records ++ [info]).length} =
      insert records.length {ticket | ticket < records.length} := by
    ext ticket
    simp only [List.length_append, List.length_singleton, Set.mem_ofPred_eq, Set.mem_insert_iff]
    omega
  have queued := inv.queued.grow [info]
  have fetches := inv.fetches.grow [info]
  refine ⟨?_, ⟨queued.fifos, queued.idle, queued.beyond, queued.order, queued.full⟩, ?_, ?_⟩
  · intro u
    by_cases same : u = t
    · rw [same, pc_move_self, after]
      simp only [Tickets.issue, Function.update_self]
      exact Option.Rel.some (numbers_last records info)
    · rw [pc_move_of_ne same]
      simp only [Tickets.issue, Function.update_of_ne same]
      exact rel_grow (inv.held u) [info]
  · rw [pc_move_of_ne (Ne.symm other)]
    exact ⟨fetches.taken, fetches.copying, fetches.fetched⟩
  · rw [live]
    exact inv.custody.alloc (lt_irrefl records.length) old

/-- A look of a packet moves no ticket, unless it decides to put a record. -/
theorem HookLooks.issues {c : Capture} (looks : HookLooks jhash c p hook hook') :
    (decidedInfo (.hook p hook) (.hook p hook') = none ∧
      (∀ ncpu issued t, l.settle ncpu issued t (.hook p hook) (.hook p hook') = l) ∧
      ((CapturePc.hook p hook').info = (CapturePc.hook p hook).info ∨ c.ipFifo = none ∧
        ∃ info, hook = .entering info)) ∨
    ∃ info, hook = .filling ∧ hook' = .entering info := by
  cases looks with
  | waits =>
      left
      refine ⟨?_, ?_, Or.inl rfl⟩
      · cases hook <;> simp [decidedInfo, decisionOf, HookTask.Undecided]
      · intro ncpu issued t
        cases hook <;> rfl
  | fills info made => exact Or.inr ⟨info, rfl, rfl⟩
  | noQueue info none =>
      left
      exact ⟨by simp [decidedInfo, decisionOf, HookTask.Undecided], fun _ _ _ => rfl,
        Or.inr ⟨none, info, rfl⟩⟩
  | _ =>
      left
      exact ⟨by simp [decidedInfo, decisionOf, HookTask.Undecided], fun _ _ _ => rfl, Or.inl rfl⟩

theorem TicketsInv.looks (inv : TicketsInv ncpu s records l) (other : t ≠ 0)
    (here : s.pc t = .hook p hook) (queue : s.shared.ipFifo.isSome)
    (looks : HookLooks jhash s.shared p hook hook') :
    TicketsInv ncpu (s.move t s.shared (.hook p hook'))
      (records ++ (decidedInfo (.hook p hook) (.hook p hook')).toList)
      (l.settle ncpu records.length t (.hook p hook) (.hook p hook')) := by
  rcases looks.issues with ⟨none, settled, same⟩ | ⟨info, rfl, rfl⟩
  · rw [none, settled, Option.toList_none, List.append_nil]
    rcases same with same | ⟨absent, -⟩
    · exact inv.hook_keep other (by rw [same, here]) inv.queued
    · rw [absent] at queue
      exact absurd queue (by simp)
  · have decided : decidedInfo (.hook p .filling) (.hook p (.entering info)) = some info := by
      simp [decidedInfo, decisionOf, HookTask.Undecided]
    rw [decided, Option.toList_some]
    exact inv.issue other (by rw [here]; rfl) rfl

/-- A record is put, or refused. -/
theorem TicketsInv.puts (inv : TicketsInv ncpu s records l) (other : t ≠ 0) {info : IpKeyInfo}
    {fifo : Option ℕ} {q : ℕ} {cpus : List CpuFifo} {f : CpuFifo}
    (here : s.pc t = .hook p (.queueing info fifo))
    (queue : s.shared.cpuFifos s.shared.ipFifo = some (q, cpus))
    (present : cpus[p.cpu]? = some f) (possible : p.cpu < ncpu) :
    TicketsInv ncpu
      (s.move t (s.shared.setFifo q p.cpu cpus { f with fifo := (f.fifo.put info).2 })
        (.hook p (.counting (f.fifo.put info).1 fifo))) records
      (l.settle ncpu records.length t (.hook p (.queueing info fifo))
        (.hook p (.counting (f.fifo.put info).1 fifo))) := by
  have record : (s.pc t).info = some info := by
    rw [here]
    rfl
  rcases exists_held inv record with ⟨ticket, mine, numbers⟩
  simp only [Tickets.settle, mine]
  have gone : Function.update l.held t none t = none := Function.update_self t none l.held
  have others : ∀ u ≠ t, Function.update l.held t none u = l.held u :=
    fun u differ => Function.update_of_ne differ none l.held
  by_cases room : f.fifo.items.length < f.fifo.size
  · rw [if_pos (Kfifo.put_of_room info room).1]
    refine inv.hook_move other ?_ others ?_ ⟨inv.fetches.taken, inv.fetches.copying,
      inv.fetches.fetched⟩ ?_
    · simp only [Tickets.put, gone]
      exact Option.Rel.none
    · exact inv.queued.put queue present possible room numbers t
    · exact inv.custody.publish mine (settled_put l t ticket possible)
  · have refused : (f.fifo.put info).1 = false := by simp only [Kfifo.put, dif_neg room]
    rw [if_neg (by rw [refused]; simp)]
    refine inv.hook_move other ?_ others ?_ ⟨inv.fetches.taken, inv.fetches.copying,
      inv.fetches.fetched⟩ ?_
    · simp only [Tickets.refuse, gone]
      exact Option.Rel.none
    · exact inv.queued.refuse queue present room t ticket
    · exact inv.custody.publish mine (settled_refuse l t p.cpu ticket)

theorem TicketsInv.packet (inv : TicketsInv ncpu s records l)
    (capture : CaptureInv jhash ncpu s chains) (other : ¬(s.pc t).IsClient)
    (took : CaptureTook jhash ncpu s.shared (s.pc t) c' pc') :
    TicketsInv ncpu (s.move t c' pc') (records ++ (decidedInfo (s.pc t) pc').toList)
      (l.settle ncpu records.length t (s.pc t) pc') := by
  have notZero : t ≠ 0 := fun zero => other ((capture.one t).mpr zero)
  have queued := inv.queued
  generalize here : s.pc t = pc at took other ⊢
  cases took with
  | stays =>
      have quiet : decidedInfo pc' pc' = none ∧ l.settle ncpu records.length t pc' pc' = l := by
        cases pc' with
        | hook p hook =>
            cases hook <;> simp [decidedInfo, decisionOf, Tickets.settle, HookTask.Undecided]
        | client task => exact absurd (show (CapturePc.client task).IsClient from trivial) other
        | _ => exact ⟨rfl, rfl⟩
      rw [quiet.1, quiet.2, Option.toList_none, List.append_nil]
      exact inv.hook_keep notZero (by rw [here]) queued
  | looks p looks =>
      have guest := capture.guests t p _ here
      exact inv.looks notZero here (capture.memory.fifo.mp guest.hasQueue.2) looks
  | puts p info fifo q cpus f queue present =>
      have guest := capture.guests t p _ here
      rw [show fifo = s.shared.ipFifo from guest.relies] at queue
      have put := inv.puts notZero here queue present guest.possible
      rw [← List.append_nil records] at put
      exact put
  | arrives p place hooked registered possible =>
      rw [show (decidedInfo _ _).toList = [] from rfl, List.append_nil]
      exact inv.hook_keep notZero (by rw [here]; rfl) (queued.keep rfl rfl)
  | disables p info free =>
      rw [show (decidedInfo _ _).toList = [] from rfl, List.append_nil]
      exact inv.hook_keep notZero (by rw [here]; rfl) (queued.keep rfl rfl)
  | counts p put fifo pkts =>
      rw [show (decidedInfo _ _).toList = [] from rfl, List.append_nil]
      cases put with
      | false =>
          exact inv.hook_keep notZero (by rw [here]; rfl) (queued.keep rfl rfl)
      | true =>
          exact inv.hook_keep notZero (by rw [here]; rfl) (queued.keep rfl rfl)
  | alarms p fifo q cpus f queue present =>
      have guest := capture.guests t p _ here
      rw [show fifo = s.shared.ipFifo from guest.relies] at queue
      rw [show (decidedInfo _ _).toList = [] from rfl, List.append_nil]
      have same : (updateAlarm f).fifo = f.fifo := by
        rw [updateAlarm]
        split <;> rfl
      refine inv.hook_keep notZero (by rw [here]; rfl) ?_
      refine queued.setFifo queue present ?_ (fun _ _ => rfl) queued.beyond queued.order queued.full
      rw [same]
      exact queued.fifos q cpus queue p.cpu f present
  | leaves p =>
      rw [show (decidedInfo _ _).toList = [] from rfl, List.append_nil]
      exact inv.hook_keep notZero (by rw [here]; rfl) (queued.keep rfl rfl)
  | returns p place hooked =>
      rw [show (decidedInfo _ _).toList = [] from rfl, List.append_nil]
      exact inv.hook_keep notZero (by rw [here]; rfl) (queued.keep rfl rfl)
  | _ => exact absurd trivial other

/-! The client -/

theorem Queued.unused {c : Capture} (queued : Queued ncpu c records l) (none : c.ipFifo = none)
    (none' : c'.ipFifo = Option.none) : Queued ncpu c' records l := by
  refine ⟨?_, fun _ => queued.idle none, queued.beyond, queued.order, queued.full⟩
  intro q cpus here
  rw [none'] at here
  exact absurd here (by simp [Capture.cpuFifos])

theorem take_zero (l : Tickets) (cpu : ℕ) : l.take cpu 0 = l := by
  simp [Tickets.take, Function.update_eq_self]

variable {task task' : CaptureTask}

/-- A look of the client moves no ticket, unless it ends a fetch or a session. -/
theorem CaptureLooks.settles {c : Capture} (looks : CaptureLooks jhash c task task') :
    ((∀ ncpu issued t, l.settle ncpu issued t (.client task) (.client task') = l) ∧
      (CapturePc.client task').copied = (CapturePc.client task).copied) ∨
    (∃ args copied, task = .copying args copied ∧ task' = .restoring .nameSet) ∨
    task = .exitQueue ∧ task' = .clearing 0 ∧ c.ipFifo = none := by
  cases looks with
  | waits =>
      left
      refine ⟨?_, rfl⟩
      intro ncpu issued t
      cases task with
      | moving args cpu copied infonum =>
          rw [Tickets.settle, Nat.sub_self]
          exact take_zero l cpu
      | _ => rfl
  | skips args cpu copied infonum =>
      left
      refine ⟨?_, rfl⟩
      intro ncpu issued t
      rw [Tickets.settle, Nat.sub_self]
      exact take_zero l cpu
  | ends args cpu copied infonum =>
      left
      refine ⟨?_, rfl⟩
      intro ncpu issued t
      rw [Tickets.settle, Nat.sub_self]
      exact take_zero l cpu
  | copies args copied => exact Or.inr (Or.inl ⟨args, copied, rfl, rfl⟩)
  | noExit none => exact Or.inr (Or.inr ⟨rfl, rfl, none⟩)
  | synchronizes hook none =>
      left
      by_cases last : hook = 0
      · rw [if_pos last]
        exact ⟨fun _ _ _ => rfl, rfl⟩
      · rw [if_neg last]
        exact ⟨fun _ _ _ => rfl, rfl⟩
  | _ => exact Or.inl ⟨fun _ _ _ => rfl, rfl⟩

theorem TicketsInv.client (inv : TicketsInv ncpu s records l)
    (capture : CaptureInv jhash ncpu s chains) (here : s.pc t = .client task)
    (took : CaptureTook jhash ncpu s.shared (.client task) c' pc') :
    TicketsInv ncpu (s.move t c' pc') records
      (l.settle ncpu records.length t (.client task) pc') := by
  have zero := capture.eq_zero here
  have none : (s.pc t).info = none := by
    rw [here]
    rfl
  have queued := inv.queued
  have fetches := inv.fetches
  have memory := capture.memory
  rw [capture.task_eq here] at memory
  rw [← zero, here] at fetches
  have looks : ∀ task', CaptureLooks jhash s.shared task task' →
      TicketsInv ncpu (s.move t s.shared (.client task')) records
        (l.settle ncpu records.length t (.client task) (.client task')) := by
    intro task' looks
    rcases looks.settles with ⟨settled, copied⟩ | ⟨args, copied, rfl, rfl⟩ | ⟨rfl, rfl, absent⟩
    · rw [settled]
      refine inv.client_move zero none rfl rfl queued ?_ rfl
      rw [copied]
      exact fetches
    · refine inv.client_move zero none rfl rfl ?_ (fetches.fetch args) rfl
      exact ⟨queued.fifos, queued.idle, queued.beyond, queued.order, queued.full⟩
    · exact inv.client_move zero none rfl rfl (queued.stop absent) (fetches_stop records l ncpu)
        (settled_stop l ncpu)
  cases took with
  | stays => exact looks task (.waits task)
  | clientLooks looked => exact looks _ looked
  | moves args cpu copied infonum q cpus f queue present onward =>
      have old := queued.fifos q cpus queue cpu f present
      have moved : List.Forall₂ (Numbers records)
          ((l.waiting cpu).take (f.fifo.out infonum).1.length) (f.fifo.out infonum).1 := by
        have numbered := List.forall₂_take (f.fifo.out infonum).1.length old.2
        rwa [← Kfifo.out_append f.fifo infonum, List.take_left] at numbered
      have count : (copied ++ (f.fifo.out infonum).1).length - copied.length =
          (f.fifo.out infonum).1.length := by
        rw [List.length_append, Nat.add_sub_cancel_left]
      cases onward with
      | full =>
          rw [Tickets.settle, count]
          exact inv.client_move zero none rfl rfl (queued.take queue present infonum)
            (fetches.take moved) rfl
      | next =>
          rw [Tickets.settle, count]
          exact inv.client_move zero none rfl rfl (queued.take queue present infonum)
            (fetches.take moved) rfl
  | creates vmalloc q free =>
      have absent : s.shared.ipFifo = Option.none := by
        rw [← Option.not_isSome_iff_eq_none, ← memory.fifo]
        exact id
      exact inv.client_move zero none rfl rfl (queued.create absent q) fetches rfl
  | undoes vmalloc q free =>
      have absent : s.shared.ipFifo = Option.none := by
        rw [← Option.not_isSome_iff_eq_none, ← memory.fifo]
        exact id
      exact inv.client_move zero none rfl rfl (queued.unused absent rfl) fetches rfl
  | noPercpu vmalloc =>
      have absent : s.shared.ipFifo = Option.none := by
        rw [← Option.not_isSome_iff_eq_none, ← memory.fifo]
        exact id
      exact inv.client_move zero none rfl rfl (queued.unused absent rfl) fetches rfl
  | exits q queue =>
      exact inv.client_move zero none rfl rfl (queued.stop rfl) (fetches_stop records l ncpu)
        (settled_stop l ncpu)
  | enters task new request =>
      rcases request with ⟨args, rfl, -, -⟩ | ⟨args, rfl, -, -⟩
      · exact inv.client_move zero none rfl rfl (queued.keep rfl rfl) fetches rfl
      · exact inv.client_move zero none rfl rfl (queued.keep rfl rfl) fetches rfl
  | opens | noTable | inits | registers | configures | allocates | links | publishes | countsGets
  | restores | closes | unregisters | frees | freesTable | forgets =>
      exact inv.client_move zero none rfl rfl (queued.keep rfl rfl) fetches rfl

end Step

/-! ## Runs -/

section Runs

variable (jhash : List UInt8 → UInt32 → UInt32) (ncpu : ℕ)

/-- The invariant of the journal and of the tickets. -/
structure LedgerInv (s : Captures) (l : CaptureLedger) : Prop where
  journal : JournalInv jhash ncpu s l.journal
  tickets : TicketsInv ncpu s l.journal.records l.tickets

/-- No records yet. -/
def emptyTickets : Tickets where
  held := fun _ => none
  refused := []
  ended := []
  accepted := fun _ => []
  waiting := fun _ => []
  taken := []
  copying := []
  fetched := []

/-- What is kept beside a run of the module. -/
def captureLedger (events : List (ℕ × CaptureAct)) : CaptureLedger :=
  (run (observe (captureStep jhash ncpu) (ticketStep jhash ncpu))
    (loadedCapture, ⟨emptyJournal, emptyTickets⟩) events).2

variable {jhash ncpu} {s : Captures} {l : CaptureLedger}

theorem records_journalStep (s : Captures) (event : ℕ × CaptureAct) (j : Journal) :
    (journalStep jhash ncpu s event j).records =
      j.records ++ (decidedInfo (s.pc event.1)
        ((captureStep jhash ncpu s event).pc event.1)).toList := by
  simp only [Journal.records, journalStep, List.filterMap_append, decidedInfo]
  congr 1
  cases decisionOf (s.pc event.1) ((captureStep jhash ncpu s event).pc event.1) with
  | none => rfl
  | some decided =>
      rcases decided with ⟨p, answer⟩
      cases answer <;> rfl

theorem LedgerInv.step (inv : LedgerInv jhash ncpu s l) (event : ℕ × CaptureAct) :
    LedgerInv jhash ncpu (captureStep jhash ncpu s event) (ticketStep jhash ncpu s event l) := by
  have capture := inv.journal.inv
  have took : CaptureTook jhash ncpu s.shared (s.pc event.1) _ _ :=
    took_captureAct (s.pc event.1) event.2 (capture.usable event.1)
  have moved : (captureStep jhash ncpu s event).pc event.1 =
      (captureAct jhash ncpu s.shared (s.pc event.1) event.2).2 := pc_move_self
  refine ⟨inv.journal.step event, ?_⟩
  show TicketsInv ncpu (captureStep jhash ncpu s event)
    (journalStep jhash ncpu s event l.journal).records (l.tickets.settle ncpu
      l.journal.records.length event.1 (s.pc event.1) ((captureStep jhash ncpu s event).pc event.1))
  rw [records_journalStep, moved]
  by_cases client : (s.pc event.1).IsClient
  · cases here : s.pc event.1 with
    | client task =>
        rw [here] at took
        have stepped := inv.tickets.client capture here took
        rw [← here] at stepped ⊢
        rw [show decidedInfo (s.pc event.1) _ = none by rw [here]; rfl, Option.toList_none,
          List.append_nil]
        exact stepped
    | _ =>
        rw [here] at client
        exact absurd client id
  · exact inv.tickets.packet capture client took

variable (jhash ncpu)

theorem ledgerInv_run (events : List (ℕ × CaptureAct)) :
    LedgerInv jhash ncpu (run (captureStep jhash ncpu) loadedCapture events)
      (captureLedger jhash ncpu events) := by
  have kept : ∀ (both : Captures × CaptureLedger) event, LedgerInv jhash ncpu both.1 both.2 →
      LedgerInv jhash ncpu (observe (captureStep jhash ncpu) (ticketStep jhash ncpu) both event).1
        (observe (captureStep jhash ncpu) (ticketStep jhash ncpu) both event).2 :=
    fun both event inv => inv.step event
  have first : LedgerInv jhash ncpu loadedCapture ⟨emptyJournal, emptyTickets⟩ := by
    refine ⟨journalInv_run jhash ncpu [], ?_, ?_, ⟨rfl, List.Forall₂.nil, ?_⟩, ?_⟩
    · intro t
      by_cases zero : t = 0
      · rw [zero]
        exact Option.Rel.none
      · rw [show loadedCapture.pc t = .resting from if_neg zero]
        exact Option.Rel.none
    · refine ⟨?_, fun _ _ => rfl, fun _ _ => rfl, fun _ => rfl, ?_⟩
      · intro q cpus here
        exact absurd here (by simp [loadedCapture, Capture.cpuFifos])
      · exact fun one member => absurd member List.not_mem_nil
    · exact fun one member => absurd member List.not_mem_nil
    · have nothing : {ticket | ticket < emptyJournal.records.length} = ∅ := by
        simp [emptyJournal, Journal.records]
      have bare : emptyTickets.settled ncpu = [] := by
        simp [emptyTickets, Tickets.settled, Buckets.entries]
      rw [nothing, bare]
      exact Custody.empty
  have both := invariant_of_step kept events
    (show LedgerInv jhash ncpu (loadedCapture, (⟨emptyJournal, emptyTickets⟩ : CaptureLedger)).1
      (loadedCapture, (⟨emptyJournal, emptyTickets⟩ : CaptureLedger)).2 from first)
  rw [run_observe_fst] at both
  exact both

/-- However the packets and the client interleave, each decided record is at one place: a
packet has it, it was refused by a full queue, it was in a queue that is freed, or it was
accepted on one CPU. There the accepted records are those that the client took and then those
that wait, in order; the fetches together pass to `copy_to_user` what the client took, in order,
and each record taken reached the user, was in a fetch whose copy failed, or is being copied. -/
theorem records_in_one_place (events : List (ℕ × CaptureAct)) :
    ((captureLedger jhash ncpu events).tickets.settled ncpu).Nodup ∧
    (∀ ticket < (captureLedger jhash ncpu events).journal.records.length,
      (ticket ∈ (captureLedger jhash ncpu events).tickets.settled ncpu ∧
        ∀ t, (captureLedger jhash ncpu events).tickets.held t ≠ some ticket) ∨
      ticket ∉ (captureLedger jhash ncpu events).tickets.settled ncpu ∧
        ∃! t, (captureLedger jhash ncpu events).tickets.held t = some ticket) ∧
    (∀ t, Option.Rel (Numbers (captureLedger jhash ncpu events).journal.records)
      ((captureLedger jhash ncpu events).tickets.held t)
      ((run (captureStep jhash ncpu) loadedCapture events).pc t).info) ∧
    (∀ one ∈ (captureLedger jhash ncpu events).tickets.refused, one.2 = ipFifoSize) ∧
    (∀ cpu, (captureLedger jhash ncpu events).tickets.accepted cpu =
      (captureLedger jhash ncpu events).tickets.takenOf cpu ++
        (captureLedger jhash ncpu events).tickets.waiting cpu) ∧
    (∀ q cpus, (run (captureStep jhash ncpu) loadedCapture events).shared.cpuFifos
        (run (captureStep jhash ncpu) loadedCapture events).shared.ipFifo = some (q, cpus) →
      ∀ cpu f, cpus[cpu]? = some f →
        List.Forall₂ (Numbers (captureLedger jhash ncpu events).journal.records)
          ((captureLedger jhash ncpu events).tickets.waiting cpu) f.fifo.items) ∧
    Fetches (captureLedger jhash ncpu events).journal.records
      ((run (captureStep jhash ncpu) loadedCapture events).pc 0).copied
      (captureLedger jhash ncpu events).tickets ∧
    ((captureLedger jhash ncpu events).tickets.taken.map Prod.snd).Perm
      ((captureLedger jhash ncpu events).tickets.delivered ++
        (captureLedger jhash ncpu events).tickets.uncopied ++
          (captureLedger jhash ncpu events).tickets.copying) ∧
    ∀ info ∈ (captureLedger jhash ncpu events).journal.records,
      ∃ d ∈ (captureLedger jhash ncpu events).journal.decisions, d.answer = some info ∧
        ∃ set ∈ d.past, d.packet.info jhash set = some (some info) := by
  have inv := ledgerInv_run jhash ncpu events
  have custody := inv.tickets.custody
  refine ⟨custody.nodup, ?_, inv.tickets.held, inv.tickets.queued.full, inv.tickets.queued.order,
    ?_, inv.tickets.fetches, inv.tickets.fetches.taken_perm, ?_⟩
  · intro ticket issued
    rcases custody.noLeak ticket issued with settled | ⟨t, held⟩
    · left
      exact ⟨settled, fun t held => custody.apart t ticket held settled⟩
    · right
      exact ⟨custody.apart t ticket held, t, held,
        fun other theirs => custody.once other t ticket theirs held⟩
  · intro q cpus here cpu f present
    exact (inv.tickets.queued.fifos q cpus here cpu f present).2
  · intro info member
    rcases List.mem_filterMap.mp member with ⟨d, decided, answer⟩
    refine ⟨d, decided, answer, ?_⟩
    rcases inv.journal.decided d decided with ⟨set, seen, right⟩
    rw [answer] at right
    exact ⟨set, seen, right⟩

end Runs

end Linguafranca.Ipshark
