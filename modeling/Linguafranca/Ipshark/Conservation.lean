import Linguafranca.Ipshark.IpQueue
import Linguafranca.Support.Gather
import Linguafranca.Support.Run
import Mathlib.Data.UInt

/-!
# The records that pass the queue of ipshark

A ledger keeps, for each CPU, the records that its puts got accepted and the records that the
gets delivered from it. Over any run the accepted records of a CPU are those delivered
followed by those in its fifo, and the counters of the queue agree with the ledger.
-/

namespace Linguafranca.Ipshark

open Run Gather

/-- The records in the fifos in the order of the CPUs. -/
def queued (q : IpQueue) : List (List IpKeyInfo) :=
  (q.ipFifo.getD []).map fun c => c.fifo.items

/-- A put from a packet or a fetch. -/
inductive QueueEvent where
  | put (cpu : ℕ) (info : IpKeyInfo)
  | get (n : UInt32) (array : ℕ → IpKeyInfo)

/-- The queue after an event. -/
def queueStep (q : IpQueue) : QueueEvent → IpQueue
  | .put cpu info => (ipQueuePut cpu info q).2
  | .get n array => (ipQueueGet n array q).2.2

/-- What was accepted and delivered on each CPU, and the number of puts. -/
structure Ledger where
  accepted : ℕ → List IpKeyInfo
  delivered : ℕ → List IpKeyInfo
  puts : ℕ

/-- Nothing was accepted or fetched. -/
def Ledger.empty : Ledger :=
  ⟨fun _ => [], fun _ => [], 0⟩

/-- The ledger after an event. -/
def ledgerStep (q : IpQueue) (event : QueueEvent) (l : Ledger) : Ledger :=
  match event with
  | .put cpu info =>
      { l with
        accepted :=
          if (ipQueuePut cpu info q).1 then
            Function.update l.accepted cpu (l.accepted cpu ++ [info])
          else l.accepted
        puts := l.puts + 1 }
  | .get n _ =>
      { l with
        delivered := fun cpu =>
          l.delivered cpu ++ (shares n.toNat (queued q)).getD cpu [] }

/-- There is a fifo of the full size for each of the CPUs. -/
structure HasFifos (count : ℕ) (q : IpQueue) : Prop where
  present : q.ipFifo.isSome
  length : (q.ipFifo.getD []).length = count
  size : ∀ c ∈ q.ipFifo.getD [], c.fifo.size = ipFifoSize

/-- A get writes the oldest records to the first slots and leaves the other slots alone. -/
structure Gathered (n : UInt32) (array : ℕ → IpKeyInfo) (q : IpQueue) : Prop where
  count : (ipQueueGet n array q).1.toNat = min n.toNat (total (queued q))
  written : (List.range (ipQueueGet n array q).1.toNat).map (ipQueueGet n array q).2.1 =
    (shares n.toNat (queued q)).flatten
  untouched : ∀ i, (ipQueueGet n array q).1.toNat ≤ i → (ipQueueGet n array q).2.1 i = array i
  oldest : (shares n.toNat (queued q)).flatten = (queued q).flatten.take n.toNat
  left : queued (ipQueueGet n array q).2.2 = remains n.toNat (queued q)

/-- Each put is on a CPU that there is. -/
def Possible (count : ℕ) : QueueEvent → Prop
  | .put cpu _ => cpu < count
  | .get _ _ => True

/-- The ledger, the fifos and the counters agree. -/
structure Conserved (q : IpQueue) (l : Ledger) : Prop where
  fifo : ∀ cpu, l.accepted cpu = l.delivered cpu ++ (queued q).getD cpu []
  balance : q.putPkts - q.getPkts = UInt64.ofNat (total (queued q))
  puts : q.putPkts + q.unQueuedPkts = UInt64.ofNat l.puts

section

variable {n : UInt32} {array : ℕ → IpKeyInfo} {q : IpQueue} {l : Ledger} {cpus : List CpuFifo}
  {records more : List IpKeyInfo} {slot count : ℕ}

/-! ## One get -/

theorem writeFrom_nil (array : ℕ → IpKeyInfo) (slot : ℕ) : writeFrom array slot [] = array := by
  funext i
  simp [writeFrom]

theorem writeFrom_append (array : ℕ → IpKeyInfo) (slot : ℕ) (records more : List IpKeyInfo) :
    writeFrom (writeFrom array slot records) (slot + records.length) more =
      writeFrom array slot (records ++ more) := by
  funext i
  simp only [writeFrom]
  by_cases before : i < slot
  · rw [if_neg (by omega), if_neg (by omega), if_neg (by omega)]
  · by_cases first : i < slot + records.length
    · rw [if_neg (by omega), if_pos (by omega), if_pos (by omega),
        List.getElem?_append_left (by omega)]
    · rw [if_pos (by omega), if_pos (by omega), if_pos (by omega),
        List.getElem?_append_right (by omega), List.getElem?_eq_none (by omega : _ ≤ i - slot),
        show i - slot - records.length = i - (slot + records.length) by omega]
      rfl

theorem map_writeFrom (array : ℕ → IpKeyInfo) (records : List IpKeyInfo) :
    (List.range records.length).map (writeFrom array 0 records) = records := by
  apply List.ext_getElem
  · simp
  · intro i _ inside
    simp [writeFrom, inside]

theorem writeFrom_of_le (array : ℕ → IpKeyInfo) {i : ℕ} (past : slot + records.length ≤ i) :
    writeFrom array slot records i = array i := by
  simp only [writeFrom]
  rw [if_pos (by omega), List.getElem?_eq_none (by omega)]
  rfl

theorem toNat_sub_ofNat {copied : ℕ} (within : copied ≤ n.toNat) :
    (n - UInt32.ofNat copied).toNat = n.toNat - copied := by
  have small : (UInt32.ofNat copied).toNat = copied :=
    UInt32.toNat_ofNat_of_lt' (lt_of_le_of_lt within n.toNat_lt)
  rw [UInt32.toNat_sub_of_le _ _ (UInt32.le_iff_toNat_le.mpr (small.symm ▸ within)), small]

/-- The loop takes the shares of the queues and leaves what remains. -/
theorem getLoop_spec (cpus : List CpuFifo) (copied : ℕ) (array : ℕ → IpKeyInfo)
    (within : copied ≤ n.toNat) :
    let items := cpus.map fun c => c.fifo.items
    let got := getLoop n (n.toNat - copied) copied array cpus
    got.1 = copied + min (n.toNat - copied) (total items) ∧
      got.2.1 = writeFrom array copied (shares (n.toNat - copied) items).flatten ∧
      (got.2.2.map fun c => c.fifo.items) = remains (n.toNat - copied) items ∧
      (got.2.2.map fun c => c.fifo.size) = cpus.map fun c => c.fifo.size := by
  induction cpus generalizing copied array with
  | nil => simp [getLoop, shares, remains, writeFrom_nil]
  | cons c rest ih =>
      simp only [getLoop, List.map_cons, shares, remains, total_cons, List.flatten_cons]
      by_cases empty : c.fifo.items = []
      · have later := ih copied array within
        simpa [empty] using later
      · have some : c.fifo.items.isEmpty = false := by simpa using empty
        have given : (c.fifo.out (n.toNat - copied)).1.length =
            min (n.toNat - copied) c.fifo.items.length := by simp [Kfifo.out]
        have room : copied + min (n.toNat - copied) c.fifo.items.length ≤ n.toNat := by omega
        have budget : n.toNat - (copied + min (n.toNat - copied) c.fifo.items.length) =
            n.toNat - copied - c.fifo.items.length := by omega
        have later := ih _ (writeFrom array copied (c.fifo.items.take (n.toNat - copied))) room
        simp only [some, Bool.false_eq_true, if_false, given, toNat_sub_ofNat room]
        rw [budget] at later ⊢
        by_cases used : n.toNat - copied - c.fifo.items.length = 0
        · rw [if_pos used]
          simp only [used, flatten_shares_zero, remains_zero, List.append_nil, List.map_cons]
          refine ⟨by omega, rfl, rfl, rfl⟩
        · rw [if_neg used]
          simp only [List.map_cons]
          refine ⟨?_, ?_, ?_, ?_⟩
          · have counted := later.1
            simp only [Kfifo.out]
            omega
          · rw [← writeFrom_append]
            have written := later.2.1
            simpa [Kfifo.out] using written
          · exact congrArg (List.cons _) later.2.2.1
          · exact congrArg (List.cons _) later.2.2.2

theorem queued_ipQueueGet (n : UInt32) (array : ℕ → IpKeyInfo) (q : IpQueue) :
    queued (ipQueueGet n array q).2.2 = remains n.toNat (queued q) := by
  cases present : q.ipFifo with
  | none => simp [ipQueueGet, queued, present, remains]
  | some cpus =>
      rcases @getLoop_spec n cpus 0 array (Nat.zero_le _) with ⟨-, -, left, -⟩
      simpa [ipQueueGet, queued, present] using left

theorem gathered {m : ℕ} (fifos : HasFifos m q) (n : UInt32) (array : ℕ → IpKeyInfo) :
    Gathered n array q := by
  rcases Option.isSome_iff_exists.mp fifos.present with ⟨cpus, present⟩
  rcases @getLoop_spec n cpus 0 array (Nat.zero_le _) with ⟨counted, written, -⟩
  have items : queued q = cpus.map fun c => c.fifo.items := by simp [queued, present]
  simp only [Nat.zero_add, Nat.sub_zero, ← items] at counted written
  have count : (ipQueueGet n array q).1.toNat = min n.toNat (total (queued q)) := by
    simp only [ipQueueGet, present, counted]
    exact UInt32.toNat_ofNat_of_lt' (lt_of_le_of_lt (min_le_left _ _) n.toNat_lt)
  have array' : (ipQueueGet n array q).2.1 =
      writeFrom array 0 (shares n.toNat (queued q)).flatten := by
    simp only [ipQueueGet, present, written]
  have length := length_flatten_shares n.toNat (queued q)
  refine ⟨count, ?_, ?_, flatten_shares _ _, ?_⟩
  · rw [count, array', ← length]
    exact map_writeFrom array _
  · intro i past
    rw [array']
    apply writeFrom_of_le
    omega
  · exact queued_ipQueueGet n array q

/-! ## One put -/

@[simp]
theorem fifo_updateAlarm (c : CpuFifo) : (updateAlarm c).fifo = c.fifo := by
  simp only [updateAlarm]
  split <;> rfl

/-- A put appends the record to the fifo of the CPU or leaves the fifos as they were. -/
theorem queued_ipQueuePut (cpu : ℕ) (info : IpKeyInfo) (q : IpQueue) :
    (ipQueuePut cpu info q).1 = true ∧
        (∃ items, (queued q)[cpu]? = some items ∧
          queued (ipQueuePut cpu info q).2 = (queued q).set cpu (items ++ [info])) ∨
      (ipQueuePut cpu info q).1 = false ∧ queued (ipQueuePut cpu info q).2 = queued q := by
  cases present : q.ipFifo with
  | none =>
      right
      simp [ipQueuePut, present]
  | some cpus =>
      cases found : cpus[cpu]? with
      | none =>
          right
          simp [ipQueuePut, present, found]
      | some c =>
          by_cases room : c.fifo.items.length < c.fifo.size
          · left
            simp only [ipQueuePut, present, found, Kfifo.put, room, dite_true, if_true, queued,
              Option.getD_some, List.getElem?_map, Option.map_some]
            refine ⟨trivial, _, rfl, ?_⟩
            simp [List.map_set]
          · right
            rcases List.getElem?_eq_some_iff.mp found with ⟨inside, rfl⟩
            simp only [ipQueuePut, present, found, Kfifo.put, room, dite_false, queued,
              Bool.false_eq_true, if_false, Option.getD_some, List.map_set, fifo_updateAlarm,
              true_and]
            calc (cpus.map fun c => c.fifo.items).set cpu cpus[cpu].fifo.items
                = (cpus.set cpu cpus[cpu]).map fun c => c.fifo.items := by rw [List.map_set]
              _ = cpus.map fun c => c.fifo.items := by rw [List.set_getElem_self]

theorem counts_ipQueuePut {m cpu : ℕ} (fifos : HasFifos m q) (possible : cpu < m)
    (info : IpKeyInfo) :
    (ipQueuePut cpu info q).1 = true ∧
        (ipQueuePut cpu info q).2.putPkts = q.putPkts + 1 ∧
        (ipQueuePut cpu info q).2.unQueuedPkts = q.unQueuedPkts ∨
      (ipQueuePut cpu info q).1 = false ∧
        (ipQueuePut cpu info q).2.putPkts = q.putPkts ∧
        (ipQueuePut cpu info q).2.unQueuedPkts = q.unQueuedPkts + 1 := by
  rcases Option.isSome_iff_exists.mp fifos.present with ⟨cpus, present⟩
  have inside : cpu < cpus.length := by
    simpa [present, ← fifos.length] using possible
  simp only [ipQueuePut, present, List.getElem?_eq_getElem inside]
  cases put : (cpus[cpu].fifo.put info).1 with
  | true => simp
  | false => simp

theorem getPkts_ipQueuePut (cpu : ℕ) (info : IpKeyInfo) (q : IpQueue) :
    (ipQueuePut cpu info q).2.getPkts = q.getPkts := by
  simp only [ipQueuePut]
  split
  · rfl
  · split
    · rfl
    · split <;> rfl

/-! ## Runs -/

theorem hasFifos_step {m : ℕ} (fifos : HasFifos m q) (event : QueueEvent) :
    HasFifos m (queueStep q event) := by
  rcases Option.isSome_iff_exists.mp fifos.present with ⟨cpus, present⟩
  have length := fifos.length
  have size := fifos.size
  simp only [present, Option.getD_some] at length size
  cases event with
  | put cpu info =>
      simp only [queueStep, ipQueuePut, present]
      cases found : cpus[cpu]? with
      | none => exact fifos
      | some c =>
          have member : c ∈ cpus := List.mem_of_getElem? found
          have kept : ∀ other ∈ cpus.set cpu (updateAlarm { c with fifo := (c.fifo.put info).2 }),
              other.fifo.size = ipFifoSize := by
            intro other inside
            rcases List.mem_or_eq_of_mem_set inside with old | rfl
            · exact size other old
            · simpa using size c member
          dsimp only
          split
          · exact ⟨rfl, by simpa using length, kept⟩
          · exact ⟨rfl, by simpa using length, kept⟩
  | get n array =>
      rcases @getLoop_spec n cpus 0 array (Nat.zero_le _) with ⟨-, -, -, sizes⟩
      simp only [Nat.sub_zero] at sizes
      simp only [queueStep, ipQueueGet, present]
      refine ⟨rfl, ?_, ?_⟩
      · simpa [length] using congrArg List.length sizes
      · intro c member
        have kept : c.fifo.size ∈ cpus.map fun c => c.fifo.size := by
          rw [← sizes]
          exact List.mem_map_of_mem member
        rcases List.mem_map.mp kept with ⟨old, oldMember, same⟩
        rw [← same]
        exact size old oldMember

/-! ## Counters of 64 bits -/

theorem balance_put {put get : UInt64} {whole : ℕ} (balance : put - get = UInt64.ofNat whole) :
    put + 1 - get = UInt64.ofNat (whole + 1) := by
  rw [UInt64.ofNat_add, ← balance]
  grind

theorem balance_get {put get : UInt64} {rest count whole : ℕ}
    (balance : put - get = UInt64.ofNat whole) (split : rest + count = whole) :
    put - (get + UInt64.ofNat count) = UInt64.ofNat rest := by
  subst split
  rw [UInt64.ofNat_add] at balance
  grind

theorem puts_succ {put unQueued : UInt64} {puts : ℕ}
    (counted : put + unQueued = UInt64.ofNat puts) :
    put + 1 + unQueued = UInt64.ofNat (puts + 1) ∧
      put + (unQueued + 1) = UInt64.ofNat (puts + 1) := by
  rw [UInt64.ofNat_add, ← counted]
  constructor <;> grind

/-! ## The ledger -/

/-- Whatever a CPU had and accepted since was delivered or is in its fifo. -/
def Balanced (start : List (List IpKeyInfo)) (both : IpQueue × Ledger) : Prop :=
  ∀ cpu, start.getD cpu [] ++ both.2.accepted cpu =
    both.2.delivered cpu ++ (queued both.1).getD cpu []

theorem balanced_step {start : List (List IpKeyInfo)} (both : IpQueue × Ledger)
    (event : QueueEvent) (balanced : Balanced start both) :
    Balanced start (observe queueStep ledgerStep both event) := by
  rcases both with ⟨q, l⟩
  intro other
  have before := balanced other
  cases event with
  | put cpu info =>
      simp only [observe, queueStep, ledgerStep]
      rcases queued_ipQueuePut cpu info q with ⟨put, items, present, after⟩ | ⟨refused, after⟩
      · rw [if_pos put, after]
        by_cases own : other = cpu
        · subst own
          have inside : other < (queued q).length := (List.getElem?_eq_some_iff.mp present).1
          simp only [List.getD_eq_getElem?_getD, present, Option.getD_some] at before
          simp only [Function.update_self, List.getD_eq_getElem?_getD,
            List.getElem?_set_self inside, Option.getD_some, ← List.append_assoc]
          rw [before]
        · simpa only [Function.update_of_ne own, List.getD_eq_getElem?_getD,
            List.getElem?_set_ne (Ne.symm own)] using before
      · simpa only [refused, Bool.false_eq_true, if_false, after] using before
  | get n array =>
      simp only [observe, queueStep, ledgerStep, queued_ipQueueGet, List.append_assoc,
        getD_shares_append]
      exact before

theorem counters_put {m cpu : ℕ} (fifos : HasFifos m q) (possible : cpu < m) (info : IpKeyInfo)
    (conserved : Conserved q l) :
    (queueStep q (.put cpu info)).putPkts - (queueStep q (.put cpu info)).getPkts =
        UInt64.ofNat (total (queued (queueStep q (.put cpu info)))) ∧
      (queueStep q (.put cpu info)).putPkts + (queueStep q (.put cpu info)).unQueuedPkts =
        UInt64.ofNat (l.puts + 1) := by
  simp only [queueStep, getPkts_ipQueuePut]
  have next := puts_succ conserved.puts
  rcases queued_ipQueuePut cpu info q with ⟨put, items, present, after⟩ | ⟨refused, after⟩
  · rcases counts_ipQueuePut fifos possible info with ⟨-, counted, same⟩ | ⟨refused, -⟩
    · rw [counted, same, after, total_set_append present]
      exact ⟨balance_put conserved.balance, next.1⟩
    · simp [put] at refused
  · rcases counts_ipQueuePut fifos possible info with ⟨put, -⟩ | ⟨-, same, counted⟩
    · simp [refused] at put
    · rw [counted, same, after]
      exact ⟨conserved.balance, next.2⟩

theorem counters_get {m : ℕ} (fifos : HasFifos m q) (n : UInt32) (array : ℕ → IpKeyInfo)
    (conserved : Conserved q l) :
    (queueStep q (.get n array)).putPkts - (queueStep q (.get n array)).getPkts =
        UInt64.ofNat (total (queued (queueStep q (.get n array)))) ∧
      (queueStep q (.get n array)).putPkts + (queueStep q (.get n array)).unQueuedPkts =
        UInt64.ofNat l.puts := by
  rcases Option.isSome_iff_exists.mp fifos.present with ⟨cpus, present⟩
  rcases @getLoop_spec n cpus 0 array (Nat.zero_le _) with ⟨counted, -⟩
  have items : queued q = cpus.map fun c => c.fifo.items := by simp [queued, present]
  simp only [Nat.zero_add, Nat.sub_zero, ← items] at counted
  simp only [queueStep, queued_ipQueueGet]
  simp only [ipQueueGet, present, counted]
  exact ⟨balance_get conserved.balance (total_remains n.toNat (queued q)), conserved.puts⟩

theorem conserved_step {m : ℕ} (fifos : HasFifos m q) {event : QueueEvent}
    (possible : Possible m event) (conserved : Conserved q l) :
    Conserved (queueStep q event) (ledgerStep q event l) := by
  have balanced := @balanced_step [] (q, l) event (by simpa [Balanced] using conserved.fifo)
  have fifo : ∀ cpu, (ledgerStep q event l).accepted cpu =
      (ledgerStep q event l).delivered cpu ++ (queued (queueStep q event)).getD cpu [] := by
    simpa [Balanced, observe] using balanced
  cases event with
  | put cpu info =>
      rcases counters_put fifos possible info conserved with ⟨balance, puts⟩
      exact ⟨fifo, balance, puts⟩
  | get n array =>
      rcases counters_get fifos n array conserved with ⟨balance, puts⟩
      exact ⟨fifo, balance, puts⟩

theorem total_le {m : ℕ} (fifos : HasFifos m q) : total (queued q) ≤ m * ipFifoSize := by
  rcases Option.isSome_iff_exists.mp fifos.present with ⟨cpus, present⟩
  have size := fifos.size
  have length := fifos.length
  simp only [present, Option.getD_some] at size length
  subst length
  simp only [queued, present, Option.getD_some]
  clear present fifos
  induction cpus with
  | nil => simp
  | cons c cpus ih =>
      have bounded := c.fifo.bounded
      rw [size c List.mem_cons_self] at bounded
      have rest := ih fun other member => size other (List.mem_cons_of_mem c member)
      simp only [List.map_cons, total_cons, List.length_cons, Nat.succ_mul]
      omega

theorem queued_ipQueueInit {allocPercpu : Bool} {vmalloc : List Bool}
    (created : ipQueueInit allocPercpu vmalloc ⟨none, 0, 0, 0⟩ = (0, q)) :
    q = ⟨some (vmalloc.map fun _ => ⟨Kfifo.alloc ipFifoSize, false⟩), 0, 0, 0⟩ := by
  simp only [ipQueueInit] at created
  cases percpu : allocPercpu with
  | false => simp [percpu, enomem] at created
  | true =>
      cases all : vmalloc.all id with
      | false => simp [percpu, all, enomem] at created
      | true =>
          simp only [percpu, all, Bool.not_true, Bool.false_eq_true, if_false, if_true,
            Prod.mk.injEq, true_and] at created
          exact created.symm

theorem hasFifos_init (vmalloc : List Bool) :
    HasFifos vmalloc.length
      ⟨some (vmalloc.map fun _ => ⟨Kfifo.alloc ipFifoSize, false⟩), 0, 0, 0⟩ := by
  refine ⟨rfl, by simp, ?_⟩
  intro c member
  rcases List.mem_map.mp member with ⟨-, -, rfl⟩
  rfl

theorem conserved_init (vmalloc : List Bool) :
    Conserved ⟨some (vmalloc.map fun _ => ⟨Kfifo.alloc ipFifoSize, false⟩), 0, 0, 0⟩
      Ledger.empty := by
  have empty : total (vmalloc.map fun _ => ([] : List IpKeyInfo)) = 0 := by
    simp [total]
  refine ⟨?_, ?_, rfl⟩
  · intro cpu
    by_cases inside : cpu < vmalloc.length
    · simp [Ledger.empty, queued, inside]
    · simp [Ledger.empty, queued, inside]
  · simp only [queued, Option.getD_some, List.map_map, Function.comp_def, Kfifo.items_alloc, empty]
    rfl

/-- In every run after `ip_queue_init` each get gathers the oldest records, and no record is
lost, duplicated or reordered. As many CPUs as fit keep the count within an `int`. -/
theorem queue_conserves {allocPercpu : Bool} {vmalloc : List Bool}
    (created : ipQueueInit allocPercpu vmalloc ⟨none, 0, 0, 0⟩ = (0, q))
    {events : List QueueEvent} (possible : ∀ event ∈ events, Possible vmalloc.length event) :
    let after := run (observe queueStep ledgerStep) (q, Ledger.empty) events
    (∀ n array, Gathered n array after.1) ∧ Conserved after.1 after.2 ∧
      total (queued after.1) ≤ vmalloc.length * ipFifoSize := by
  obtain rfl := queued_ipQueueInit created
  have kept : ∀ (both : IpQueue × Ledger) (event : QueueEvent),
      HasFifos vmalloc.length both.1 ∧ Conserved both.1 both.2 →
      Possible vmalloc.length event →
      HasFifos vmalloc.length (observe queueStep ledgerStep both event).1 ∧
        Conserved (observe queueStep ledgerStep both event).1
          (observe queueStep ledgerStep both event).2 := by
    rintro ⟨q, l⟩ event ⟨fifos, conserved⟩ allowed
    exact ⟨hasFifos_step fifos event, conserved_step fifos allowed conserved⟩
  have after := invariant kept ⟨hasFifos_init vmalloc, conserved_init vmalloc⟩
    (meets_of_mem (fun event member _ => possible event member) (_, Ledger.empty))
  exact ⟨gathered after.1, after.2, total_le after.1⟩

end

/-- Two puts on the second of two CPUs, a get of one record and a put on the first CPU. -/
theorem queue_conserves_twoCpus :
    let info : IpKeyInfo :=
      ⟨Bytes.zero 16, Bytes.zero 16, Bytes.zero 16, Bytes.zero 16, 4, 1, 6, 80, 81, 40⟩
    let after := run (observe queueStep ledgerStep)
      ((ipQueueInit true [true, true] ⟨none, 0, 0, 0⟩).2, Ledger.empty)
      [.put 1 info, .put 1 info, .get 1 fun _ => info, .put 0 info]
    (∀ n array, Gathered n array after.1) ∧ Conserved after.1 after.2 ∧
      total (queued after.1) ≤ [true, true].length * ipFifoSize := by
  have created : ipQueueInit true [true, true] ⟨none, 0, 0, 0⟩ =
      (0, (ipQueueInit true [true, true] ⟨none, 0, 0, 0⟩).2) := rfl
  exact queue_conserves created (by simp [Possible])

end Linguafranca.Ipshark
