import Linguafranca.Ipshark.Conservation
import Linguafranca.Ipshark.Exclusion
import Mathlib.Data.List.GetD

/-!
# Fetches that fail

`fetch_info` takes the records out of the queue before it copies them to the user. A call
that fails before `ip_queue_get` leaves the fifos to the packets that arrive meanwhile; a call
whose copies fail afterwards has lost what it got. A ledger over one call tells the two apart,
with packets arriving before the length is read, before the get and after it.
-/

namespace Linguafranca.Ipshark

open Run Gather

/-- The CPU and the record of each packet that arrives during a call. -/
structure Meanwhile where
  early : List (ℕ × IpKeyInfo)
  mid : List (ℕ × IpKeyInfo)
  late : List (ℕ × IpKeyInfo)

/-- Packets are put one after the other. -/
def arrive (packets : List (ℕ × IpKeyInfo)) (both : IpQueue × Ledger) : IpQueue × Ledger :=
  run (observe queueStep ledgerStep) both (packets.map fun packet => .put packet.1 packet.2)

namespace Meanwhile

/-- The queue when its length is read. -/
def atWait (m : Meanwhile) (q : IpQueue) : IpQueue × Ledger :=
  arrive m.early (q, Ledger.empty)

/-- The queue when `ip_queue_get` is called. -/
def atGet (m : Meanwhile) (q : IpQueue) : IpQueue × Ledger :=
  arrive m.mid (m.atWait q)

end Meanwhile

/-- The body of `fetch_info` with the packets that arrive during it, and the ledger of the
call. -/
def fetchInfoBodyAmid (args : FetchArgs) (m : Meanwhile) (dev : Device) :
    Int × Device × Ledger :=
  let spared := arrive m.late (m.atGet dev.ipQueue)
  let err := toInt args.copySet
  if err ≠ 0 then (err, { dev with ipQueue := spared.1 }, spared.2)
  else if !args.buf ∨ args.n = 0 ∨ 1024 < args.n then
    (-einval, { dev with ipQueue := spared.1 }, spared.2)
  else if ipQueueWait args.waited (m.atWait dev.ipQueue).1 ≤ 0 then
    (-etime, { dev with ipQueue := spared.1 }, spared.2)
  else if !args.accessOk then (1, { dev with ipQueue := spared.1 }, spared.2)
  else
    let before := m.atGet dev.ipQueue
    let got := ipQueueGet args.n dev.arr before.1
    let after := arrive m.late (observe queueStep ledgerStep before (.get args.n dev.arr))
    let err := toInt args.copyArray
    let dev := { dev with arr := got.2.1, ipQueue := after.1 }
    if err ≠ 0 then (err, dev, after.2) else (toInt args.copyBack, dev, after.2)

/-- `fetch_info` with packets that arrive before, between and after its accesses to the queue. -/
def fetchInfoAmid (args : FetchArgs) (m : Meanwhile) (dev : Device) : Int × Device × Ledger :=
  let entered := cas .nameSet .run dev
  if entered.1 ≠ 0 then
    let spared := arrive m.late (m.atGet dev.ipQueue)
    (entered.1, { entered.2 with ipQueue := spared.1 }, spared.2)
  else
    let done := fetchInfoBodyAmid args m entered.2
    (done.1, set .nameSet done.2.1, done.2.2)

/-- A call that fails leaves every fifo with what it had and what arrived since, and leaves
the state in which it came in. -/
def LosesNothing (args : FetchArgs) (m : Meanwhile) (dev : Device) : Prop :=
  (fetchInfoAmid args m dev).1 ≠ 0 →
    (∀ cpu, (queued (fetchInfoAmid args m dev).2.1.ipQueue).getD cpu [] =
      (queued dev.ipQueue).getD cpu [] ++ (fetchInfoAmid args m dev).2.2.accepted cpu) ∧
    (dev.devState = .nameSet → (fetchInfoAmid args m dev).2.1.devState = .nameSet)

/-- The call comes to `ip_queue_get`. -/
structure ReachesGet (args : FetchArgs) (m : Meanwhile) (dev : Device) : Prop where
  entered : dev.devState = .nameSet
  copySet : toInt args.copySet = 0
  buf : args.buf = true
  n : ¬args.n = 0 ∧ ¬1024 < args.n
  waited : ¬ipQueueWait args.waited (m.atWait dev.ipQueue).1 ≤ 0
  accessOk : args.accessOk = true

/-- One of the copies after the get fails. -/
def CopyFails (args : FetchArgs) : Prop :=
  toInt args.copyArray ≠ 0 ∨ toInt args.copyBack ≠ 0

section

variable {args : FetchArgs} {m : Meanwhile} {dev : Device} {both : IpQueue × Ledger}
  {start : List (List IpKeyInfo)}

@[simp]
theorem arrive_nil (both : IpQueue × Ledger) : arrive [] both = both :=
  rfl

theorem fetchInfoBodyAmid_quiet (args : FetchArgs) (dev : Device) :
    (fetchInfoBodyAmid args ⟨[], [], []⟩ dev).1 = (fetchInfoBody args dev).1 ∧
      (fetchInfoBodyAmid args ⟨[], [], []⟩ dev).2.1 = (fetchInfoBody args dev).2 := by
  simp only [fetchInfoBodyAmid, fetchInfoBody, Meanwhile.atGet, Meanwhile.atWait, arrive_nil]
  by_cases copied : toInt args.copySet = 0
  · by_cases refused : args.buf = false ∨ args.n = 0 ∨ 1024 < args.n
    · simp [copied, refused]
    · by_cases late : ipQueueWait args.waited dev.ipQueue ≤ 0
      · simp [copied, refused, late]
      · by_cases accessOk : args.accessOk
        · by_cases failed : toInt args.copyArray = 0
          · simp [copied, refused, late, accessOk, failed, observe, queueStep]
          · simp [copied, refused, late, accessOk, failed, observe, queueStep]
        · simp [copied, refused, late, accessOk]
  · simp [copied]

theorem fetchInfoAmid_quiet (args : FetchArgs) (dev : Device) :
    (fetchInfoAmid args ⟨[], [], []⟩ dev).1 = (fetchInfo args dev).1 ∧
      (fetchInfoAmid args ⟨[], [], []⟩ dev).2.1 = (fetchInfo args dev).2 := by
  simp only [fetchInfoAmid, fetchInfo, cas]
  by_cases free : dev.devState = .nameSet
  · rcases fetchInfoBodyAmid_quiet args { dev with devState := .run } with ⟨result, device⟩
    simp only [free, if_true, ne_eq, not_true_eq_false, if_false]
    exact ⟨result, congrArg (set .nameSet) device⟩
  · simp only [free, if_false, einval]
    exact ⟨rfl, rfl⟩

/-! ## What a call does -/

/-- A call that does not come to the get only lets packets arrive. -/
theorem fetchInfoAmid_of_not_reaches (missed : ¬ReachesGet args m dev) :
    ((fetchInfoAmid args m dev).2.1.ipQueue, (fetchInfoAmid args m dev).2.2) =
        arrive m.late (m.atGet dev.ipQueue) ∧
      (dev.devState = .nameSet → (fetchInfoAmid args m dev).2.1.devState = .nameSet) := by
  simp only [fetchInfoAmid, cas]
  by_cases entered : dev.devState = .nameSet
  · simp only [entered, if_true, ne_eq, not_true_eq_false, if_false, fetchInfoBodyAmid]
    by_cases copied : toInt args.copySet = 0
    · simp only [copied, not_true_eq_false, if_false]
      by_cases refused : !args.buf ∨ args.n = 0 ∨ 1024 < args.n
      · simp only [refused, if_true]
        exact ⟨rfl, fun _ => rfl⟩
      · simp only [refused, if_false]
        by_cases late : ipQueueWait args.waited (m.atWait dev.ipQueue).1 ≤ 0
        · simp only [late, if_true]
          exact ⟨rfl, fun _ => rfl⟩
        · simp only [late, if_false]
          cases accessOk : args.accessOk with
          | false => exact ⟨rfl, fun _ => rfl⟩
          | true =>
              simp only [not_or] at refused
              exact absurd ⟨entered, copied, by simpa using refused.1, refused.2, late, accessOk⟩
                missed
    · simp only [copied, not_false_eq_true, if_true]
      exact ⟨rfl, fun _ => rfl⟩
  · simp only [entered, if_false, einval]
    exact ⟨rfl, False.elim⟩

/-- A call that comes to the get fails with the copies after it. -/
theorem fetchInfoAmid_of_reaches (reaches : ReachesGet args m dev) :
    ((fetchInfoAmid args m dev).1 ≠ 0 ↔ CopyFails args) ∧
      ((fetchInfoAmid args m dev).2.1.ipQueue, (fetchInfoAmid args m dev).2.2) =
        arrive m.late
          (observe queueStep ledgerStep (m.atGet dev.ipQueue) (.get args.n dev.arr)) ∧
      (fetchInfoAmid args m dev).2.1.devState = .nameSet := by
  rcases reaches with ⟨entered, copySet, buf, n, waited, accessOk⟩
  simp only [fetchInfoAmid, cas, entered, fetchInfoBodyAmid, copySet, buf, n, waited, accessOk,
    CopyFails, if_true, if_false, ne_eq, not_true_eq_false, Bool.not_true, Bool.false_eq_true,
    or_self]
  by_cases copied : toInt args.copyArray = 0
  · simp [copied, set]
  · simp [copied, set]

theorem balanced_arrive (packets : List (ℕ × IpKeyInfo)) (balanced : Balanced start both) :
    Balanced start (arrive packets both) :=
  invariant_of_step balanced_step _ balanced

theorem delivered_arrive (packets : List (ℕ × IpKeyInfo)) (both : IpQueue × Ledger) :
    (arrive packets both).2.delivered = both.2.delivered := by
  induction packets generalizing both with
  | nil => rfl
  | cons packet packets ih => exact ih _

theorem balanced_start (q : IpQueue) : Balanced (queued q) (q, Ledger.empty) := by
  intro cpu
  simp [Ledger.empty]

/-! ## What is lost -/

theorem shares_eq_nil_iff {n : ℕ} {queues : List (List IpKeyInfo)} (some : n ≠ 0) :
    (∀ cpu, (shares n queues).getD cpu [] = []) ↔ total queues = 0 := by
  have length := length_flatten_shares n queues
  constructor
  · intro none
    have empty : (shares n queues).flatten = [] := by
      rw [List.flatten_eq_nil_iff]
      intro share member
      rcases List.getElem_of_mem member with ⟨cpu, inside, rfl⟩
      rw [← List.getD_eq_getElem _ [] inside]
      exact none cpu
    rw [empty, List.length_nil] at length
    omega
  · intro none cpu
    have empty : (shares n queues).flatten = [] := by
      apply List.length_eq_zero_iff.mp
      omega
    by_cases inside : cpu < (shares n queues).length
    · rw [List.getD_eq_getElem _ [] inside]
      exact List.flatten_eq_nil_iff.mp empty _ (List.getElem_mem inside)
    · exact List.getD_eq_default _ [] (not_lt.mp inside)

/-- With the books balanced, nothing is missing where nothing was delivered. -/
theorem Balanced.kept_iff (balanced : Balanced start both) :
    (∀ cpu, (queued both.1).getD cpu [] = start.getD cpu [] ++ both.2.accepted cpu) ↔
      ∀ cpu, both.2.delivered cpu = [] := by
  constructor
  · intro kept cpu
    have whole := balanced cpu
    rw [← kept cpu] at whole
    exact List.append_left_eq_self.mp whole.symm
  · intro none cpu
    rw [balanced cpu, none cpu, List.nil_append]

/-- A call loses nothing exactly when it does not fail after the get with records queued. -/
theorem losesNothing_iff (args : FetchArgs) (m : Meanwhile) (dev : Device) :
    LosesNothing args m dev ↔
      ¬(ReachesGet args m dev ∧ CopyFails args ∧ total (queued (m.atGet dev.ipQueue).1) ≠ 0) := by
  have atGet : Balanced (queued dev.ipQueue) (m.atGet dev.ipQueue) :=
    balanced_arrive _ (balanced_arrive _ (balanced_start dev.ipQueue))
  have fresh : (m.atGet dev.ipQueue).2.delivered = fun _ => [] := by
    simp only [Meanwhile.atGet, Meanwhile.atWait, delivered_arrive, Ledger.empty]
  by_cases reaches : ReachesGet args m dev
  · rcases fetchInfoAmid_of_reaches reaches with ⟨fails, after, state⟩
    have balanced := balanced_arrive m.late
      (balanced_step _ (.get args.n dev.arr) atGet)
    have n : args.n.toNat ≠ 0 := fun zero => reaches.n.1 (UInt32.toNat_inj.mp zero)
    have delivered : (fetchInfoAmid args m dev).2.2.delivered =
        fun cpu => (shares args.n.toNat (queued (m.atGet dev.ipQueue).1)).getD cpu [] := by
      rw [congrArg Prod.snd after, delivered_arrive]
      simp only [observe, ledgerStep, fresh, List.nil_append]
    rw [← after] at balanced
    have kept := balanced.kept_iff
    simp only [delivered, shares_eq_nil_iff n] at kept
    simp only [LosesNothing, fails, kept, state, reaches]
    tauto
  · rcases fetchInfoAmid_of_not_reaches reaches with ⟨after, state⟩
    have balanced := balanced_arrive m.late atGet
    rw [← after] at balanced
    have delivered : (fetchInfoAmid args m dev).2.2.delivered = fun _ => [] := by
      rw [congrArg Prod.snd after, delivered_arrive, fresh]
    have kept := balanced.kept_iff.mpr fun cpu => congrFun delivered cpu
    simp only [reaches, false_and, not_false_eq_true, iff_true]
    exact fun _ => ⟨kept, state⟩

end

/-- An opened device with a list and one queued record. -/
def queuedDevice : Device :=
  let configured := (setNamelist constHash oneName openDevice).2
  let info : IpKeyInfo :=
    ⟨eth0, Bytes.zero 16, Bytes.zero 16, Bytes.zero 16, 4, 1, 6, 80, 81, 40⟩
  { configured with ipQueue := (ipQueuePut 0 info configured.ipQueue).2 }

/-- A fetch whose record cannot be copied to the user. -/
def failingFetch : FetchArgs :=
  { wholeFetch with n := 1, waited := 0, copyArray := 72 }

theorem failingFetch_loses : ¬LosesNothing failingFetch ⟨[], [], []⟩ queuedDevice := by
  intro kept
  have failed : (fetchInfoAmid failingFetch ⟨[], [], []⟩ queuedDevice).1 ≠ 0 := by decide
  exact absurd ((kept failed).1 0) (by decide)

end Linguafranca.Ipshark
