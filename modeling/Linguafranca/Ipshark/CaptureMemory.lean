import Linguafranca.Ipshark.CaptureSteps
import Linguafranca.Ipshark.Conservation
import Linguafranca.Support.Chain
import Linguafranca.Support.Custody
import Linguafranca.Support.RwLock

/-!
# The memory that hooks and client share

While a packet is in a hook the device table and the queue are there, and the nodes of a
bucket only get more in front, so that the place of a walk stays good (`CaptureInv`). What
allows the release to free them is the order of its steps: it waits for each hook before it
frees anything. The chains of pointers in the buckets are kept beside the run.

Here it is said what the memory consists of at each place of the client, and which of its
changes leave the packets what they rely on.
-/

namespace Linguafranca.Ipshark

open Run Interleaving Chain

/-- The next pointer of a node that is there. -/
def Capture.nextOf (c : Capture) (p : ℕ) : Option (Option ℕ) :=
  (c.nodes p).map DevNode.next

namespace CaptureTask

/-- How many hooks are registered. -/
def hooks : CaptureTask → ℕ
  | registering hook | synchronizing hook => hook
  | unregistering hook => hook + 1
  | closed | initTable _ | initQueue _ | exitQueue | clearing _ | freeing _ _ | forgetting => 0
  | _ => 6

/-- Only hooks before this one have packets. -/
def mayRun : CaptureTask → ℕ
  | synchronizing hook => hook + 1
  | task => task.hooks

/-- The client has the hash table at this point. -/
def HasTable : CaptureTask → Prop
  | closed | initTable _ | forgetting => False
  | _ => True

/-- The client has the queue at this point. -/
def HasQueue : CaptureTask → Prop
  | closed | initTable _ | initQueue _ | clearing _ | freeing _ _ | forgetting => False
  | _ => True

/-- The node that only the client knows. -/
def owns : CaptureTask → Option ℕ
  | linking _ _ newnode | publishing _ _ newnode => some newnode
  | _ => none

section

variable (jhash : List UInt8 → UInt32 → UInt32)

/-- What a point of the client knows of the memory it goes on with. -/
def Relies (c : Capture) (chains : ℕ → List ℕ) : CaptureTask → Prop
  | closed | initTable _ => c.devHashtable = none
  | registering hook => hook ≤ 6
  | unregistering hook | synchronizing hook => hook < 6
  | seeking name rest pos =>
      ∃ visited, At c.nextOf (chains (bucketOf jhash name rest)) visited pos
  | publishing name rest newnode => ∃ t heads, c.table = some (t, heads) ∧
      c.nextOf newnode = some (heads (bucketOf jhash name rest))
  | moving args _ copied infonum =>
      args.n.toNat ≤ 1024 ∧ copied.length + infonum = args.n.toNat
  | clearing bucket => ∀ i < bucket, chains i = []
  | freeing bucket pos => bucket < 2 ^ devnameHashBits ∧ (∀ i < bucket, chains i = []) ∧
      ∃ rest, chains bucket = pos :: rest
  | _ => True

end

end CaptureTask

namespace CapturePc

/-- The task of a thread, if it is the client. -/
def task : CapturePc → CaptureTask
  | client task => task
  | _ => .closed

/-- The thread is the client. -/
def IsClient : CapturePc → Prop
  | client _ => True
  | _ => False

/-- The thread has a packet in this hook. -/
def InHook (hook : ℕ) : CapturePc → Prop
  | .hook p _ => p.hooknum = some hook
  | _ => False

/-- The CPU that a put has for itself. -/
def cpu : CapturePc → Option ℕ
  | hook p (.queueing _ _) | hook p (.counting _ _) | hook p (.counted _ _ _)
  | hook p (.alarming _) | hook p .leaving => some p.cpu
  | _ => none

/-- The node that the thread has allocated but not published. -/
def owns : CapturePc → Option ℕ
  | client task => task.owns
  | _ => none

end CapturePc

section

variable (jhash : List UInt8 → UInt32 → UInt32) (ncpu : ℕ)

/-- What a point of a hook knows of the memory it goes on with. -/
def HookTask.Relies (c : Capture) (chains : ℕ → List ℕ) : HookTask → Prop
  | gating _ _ table | heading _ _ table => table = c.devHashtable
  | walking dev _ pos =>
      ∃ visited, At c.nextOf (chains (smallJhash (devHash jhash dev.name.toList))) visited pos
  | queueing _ fifo | counting _ fifo | counted _ fifo _ | alarming fifo => fifo = c.ipFifo
  | _ => True

/-- A packet is in a hook that may run, and has what it relies on. -/
structure Guest (c : Capture) (client : CaptureTask) (chains : ℕ → List ℕ) (p : Packet)
    (task : HookTask) : Prop where
  hook : ∃ i < client.mayRun, p.hooknum = some i
  possible : p.cpu < ncpu
  relies : task.Relies jhash c chains

/-- The memory that is allocated is what the client has at its place. -/
structure CaptureMemory (c : Capture) (task : CaptureTask) (chains : ℕ → List ℕ) : Prop where
  tables : ∀ t, (c.tables t).isSome ↔ task.HasTable ∧ c.devHashtable = some t
  table : task.HasTable → c.devHashtable.isSome
  fifos : ∀ q, (c.fifos q).isSome ↔ c.ipFifo = some q
  fifo : task.HasQueue ↔ c.ipFifo.isSome
  possible : ∀ q cpus, c.fifos q = some cpus → cpus.length = ncpu
  linked : ∀ t heads, c.table = some (t, heads) → ∀ i, Linked c.nextOf (heads i) (chains i)
  bare : ¬task.HasTable → ∀ i, chains i = []
  beyond : ∀ i, 2 ^ devnameHashBits ≤ i → chains i = []
  hooks : c.hooks = task.hooks
  relies : task.Relies jhash c chains

/-- There is one client, each CPU is claimed by its put, the packets in a hook are counted, and the
memory is as the point of the client says. -/
structure CaptureInv (s : Captures) (chains : ℕ → List ℕ) : Prop where
  one : ∀ t, (s.pc t).IsClient ↔ t = 0
  claims : Claims s.shared.putting fun t => (s.pc t).cpu
  counts : ∀ i, Counts (s.shared.running i) (inside (CapturePc.InHook i) s)
  memory : CaptureMemory jhash ncpu s.shared (s.pc 0).task chains
  custody : Custody {p | (s.shared.nodes p).isSome} (Buckets.entries (2 ^ devnameHashBits) chains)
    (fun t => (s.pc t).owns) fun _ => none
  guests : ∀ t p task, s.pc t = .hook p task →
    Guest jhash ncpu s.shared (s.pc 0).task chains p task
  sound : ∀ t, s.pc t ≠ .fault

/-- What a step of the client does to the chains. -/
def chainsAfter (pc pc' : CapturePc) (chains : ℕ → List ℕ) : ℕ → List ℕ :=
  match pc, pc' with
  | .client (.publishing name rest newnode), .client (.naming _) =>
      Function.update chains (bucketOf jhash name rest)
        (newnode :: chains (bucketOf jhash name rest))
  | .client (.freeing bucket _), .client (.clearing _) =>
      Function.update chains bucket (chains bucket).tail
  | _, _ => chains

/-- The chains of the buckets after a step. -/
def chainsStep (s : Captures) (event : ℕ × CaptureAct) (chains : ℕ → List ℕ) : ℕ → List ℕ :=
  chainsAfter jhash (s.pc event.1) ((captureStep jhash ncpu s event).pc event.1) chains

end

variable {jhash : List UInt8 → UInt32 → UInt32} {ncpu : ℕ}

/-! ## The memory -/

section Memory

variable {c c' : Capture} {task task' : CaptureTask} {chains : ℕ → List ℕ} {t q pos i : ℕ}
  {heads : ℕ → Option ℕ} {vmalloc : List Bool}

theorem smallJhash_lt (hash : UInt32) : smallJhash hash < 2 ^ devnameHashBits := by
  rw [smallJhash, UInt32.toNat_and]
  exact lt_of_le_of_lt Nat.and_le_right (by decide)

theorem table_eq_some_iff :
    c.table = some (t, heads) ↔ c.devHashtable = some t ∧ c.tables t = some heads := by
  simp only [Capture.table, Option.bind_eq_some_iff, Option.map_eq_some_iff, Prod.mk.injEq]
  constructor
  · rintro ⟨t', here, heads', table, rfl, rfl⟩
    exact ⟨here, table⟩
  · rintro ⟨here, table⟩
    exact ⟨t, here, heads, table, rfl, rfl⟩

theorem cpuFifos_eq_some_iff {fifo : Option ℕ} {cpus : List CpuFifo} :
    c.cpuFifos fifo = some (q, cpus) ↔ fifo = some q ∧ c.fifos q = some cpus := by
  simp only [Capture.cpuFifos, Option.bind_eq_some_iff, Option.map_eq_some_iff, Prod.mk.injEq]
  constructor
  · rintro ⟨q', rfl, cpus', here, rfl, rfl⟩
    exact ⟨rfl, here⟩
  · rintro ⟨rfl, here⟩
    exact ⟨q, rfl, cpus, here, rfl, rfl⟩

theorem cpuFifos_setFifo {cpus : List CpuFifo} (here : c.cpuFifos c.ipFifo = some (q, cpus))
    (cpu : ℕ) (f : CpuFifo) :
    (c.setFifo q cpu cpus f).cpuFifos (c.setFifo q cpu cpus f).ipFifo =
      some (q, cpus.set cpu f) := by
  apply cpuFifos_eq_some_iff.mpr
  refine ⟨(cpuFifos_eq_some_iff.mp here).1, ?_⟩
  simp only [Capture.setFifo, Function.update_self]

namespace CaptureMemory

theorem exists_table (memory : CaptureMemory jhash ncpu c task chains) (has : task.HasTable) :
    ∃ t heads, c.table = some (t, heads) := by
  rcases Option.isSome_iff_exists.mp (memory.table has) with ⟨t, here⟩
  rcases Option.isSome_iff_exists.mp ((memory.tables t).mpr ⟨has, here⟩) with ⟨heads, table⟩
  exact ⟨t, heads, table_eq_some_iff.mpr ⟨here, table⟩⟩

theorem exists_fifos (memory : CaptureMemory jhash ncpu c task chains) (has : task.HasQueue) :
    ∃ q cpus, c.cpuFifos c.ipFifo = some (q, cpus) ∧ cpus.length = ncpu := by
  rcases Option.isSome_iff_exists.mp (memory.fifo.mp has) with ⟨q, here⟩
  rcases Option.isSome_iff_exists.mp ((memory.fifos q).mpr here) with ⟨cpus, fifos⟩
  exact ⟨q, cpus, cpuFifos_eq_some_iff.mpr ⟨here, fifos⟩, memory.possible q cpus fifos⟩

end CaptureMemory

/-- What the memory consists of is as before; the fifos have other contents perhaps. -/
structure SameMemory (c c' : Capture) (chains : ℕ → List ℕ) : Prop where
  tables : c'.tables = c.tables
  table : c'.devHashtable = c.devHashtable
  fifo : c'.ipFifo = c.ipFifo
  lengths : ∀ q, (c'.fifos q).map List.length = (c.fifos q).map List.length
  nodes : ∀ i, ∀ p ∈ chains i, c'.nodes p = c.nodes p

theorem nextOf_congr {p : ℕ} (same : c'.nodes p = c.nodes p) : c'.nextOf p = c.nextOf p :=
  congrArg (Option.map DevNode.next) same

theorem SameMemory.refl (c : Capture) (chains : ℕ → List ℕ) : SameMemory c c chains :=
  ⟨rfl, rfl, rfl, fun _ => rfl, fun _ _ _ => rfl⟩

/-- Only variables outside the memory change. -/
theorem sameMemory_of_eq (tables : c'.tables = c.tables)
    (table : c'.devHashtable = c.devHashtable) (fifo : c'.ipFifo = c.ipFifo)
    (fifos : c'.fifos = c.fifos) (nodes : c'.nodes = c.nodes) : SameMemory c c' chains :=
  ⟨tables, table, fifo, fun q => by rw [fifos], fun i q _ => by rw [nodes]⟩

theorem SameMemory.table_eq (same : SameMemory c c' chains) : c'.table = c.table := by
  rw [Capture.table, Capture.table, same.table, same.tables]

/-- Memory that is as before serves the client at a place that needs the same. -/
theorem CaptureMemory.keep (memory : CaptureMemory jhash ncpu c task chains)
    (same : SameMemory c c' chains) (table : task'.HasTable ↔ task.HasTable)
    (queue : task'.HasQueue ↔ task.HasQueue) (hooks : c'.hooks = task'.hooks)
    (relies : task'.Relies jhash c' chains) : CaptureMemory jhash ncpu c' task' chains := by
  have lengths : ∀ q, (c'.fifos q).isSome = (c.fifos q).isSome := by
    intro q
    have length := congrArg Option.isSome (same.lengths q)
    simpa only [Option.isSome_map] using length
  refine ⟨?_, ?_, ?_, ?_, ?_, ?_, ?_, memory.beyond, hooks, relies⟩
  · intro t
    rw [same.tables, table, same.table]
    exact memory.tables t
  · intro has
    rw [same.table]
    exact memory.table (table.mp has)
  · intro q
    rw [lengths, same.fifo]
    exact memory.fifos q
  · rw [queue, same.fifo]
    exact memory.fifo
  · intro q cpus here
    have length := same.lengths q
    rw [here] at length
    rcases Option.map_eq_some_iff.mp length.symm with ⟨old, before, lengths⟩
    rw [← lengths]
    exact memory.possible q old before
  · intro t heads here i
    rw [same.table_eq] at here
    exact (memory.linked t heads here i).congr fun p member => nextOf_congr (same.nodes i p member)
  · exact fun has => memory.bare fun before => has (table.mpr before)

theorem sameMemory_setFifo {fifo : Option ℕ} {cpus : List CpuFifo}
    (here : c.cpuFifos fifo = some (q, cpus)) (cpu : ℕ) (f : CpuFifo) :
    SameMemory c (c.setFifo q cpu cpus f) chains := by
  refine ⟨rfl, rfl, rfl, ?_, fun _ _ _ => rfl⟩
  intro other
  by_cases same : other = q
  · rw [same, (cpuFifos_eq_some_iff.mp here).2]
    simp [Capture.setFifo]
  · simp only [Capture.setFifo, Function.update_of_ne same]

theorem sameMemory_setNode {p : ℕ} (off : ∀ i, p ∉ chains i) (node : Option DevNode) :
    SameMemory c (c.setNode p node) chains := by
  refine ⟨rfl, rfl, rfl, fun _ => rfl, ?_⟩
  intro i other member
  have differ : other ≠ p := by
    intro same
    rw [same] at member
    exact off i member
  simp only [Capture.setNode, Function.update_of_ne differ]

/-- A step of the client that only looks leaves it with what it needs. -/
theorem CaptureMemory.looks (memory : CaptureMemory jhash ncpu c task chains)
    (looks : CaptureLooks jhash c task task') : CaptureMemory jhash ncpu c task' chains := by
  have same := SameMemory.refl c chains
  have hooks := memory.hooks
  have relies := memory.relies
  cases looks with
  | waits => exact memory
  | registered most =>
      refine memory.keep same Iff.rfl Iff.rfl ?_ trivial
      exact hooks.trans (le_antisymm relies most)
  | heads name rest t heads here =>
      exact memory.keep same Iff.rfl Iff.rfl hooks ⟨[], At.start (memory.linked t heads here _)⟩
  | walks name rest pos node here other =>
      rcases relies with ⟨visited, walks⟩
      refine memory.keep same Iff.rfl Iff.rfl hooks ⟨visited ++ [pos], walks.forward ?_⟩
      rw [Capture.nextOf, here]
      rfl
  | fetches args granted queue =>
      refine memory.keep same Iff.rfl Iff.rfl hooks ⟨?_, Nat.zero_add _⟩
      rw [FetchArgs.Refused, not_or, not_or, not_or, not_or] at granted
      have small := granted.2.2.2.1
      rwa [UInt32.not_lt, UInt32.le_iff_toNat_le] at small
  | skips => exact memory.keep same Iff.rfl Iff.rfl hooks relies
  | synchronizes hook none =>
      by_cases last : hook = 0
      · rw [if_pos last]
        refine memory.keep same Iff.rfl Iff.rfl ?_ trivial
        exact hooks.trans last
      · rw [if_neg last]
        refine memory.keep same Iff.rfl Iff.rfl ?_ ?_
        · exact hooks.trans (Nat.succ_pred last).symm
        · exact lt_of_le_of_lt (Nat.pred_le hook) relies
  | noExit none =>
      have queue := memory.fifo.mp trivial
      rw [none] at queue
      exact absurd queue (by simp)
  | cleared bucket t heads here more empty =>
      refine memory.keep same Iff.rfl Iff.rfl hooks ?_
      intro i below
      rcases Nat.lt_succ_iff_lt_or_eq.mp below with earlier | last
      · exact relies i earlier
      · have linked := memory.linked t heads here bucket
        rw [empty] at linked
        rw [last]
        exact linked.eq_nil
  | clears bucket t heads pos here more first =>
      have linked := memory.linked t heads here bucket
      rw [first] at linked
      rcases linked.eq_cons with ⟨second, rest, chain, -, -⟩
      exact memory.keep same Iff.rfl Iff.rfl hooks ⟨more, relies, rest, chain⟩
  | _ => exact memory.keep same Iff.rfl Iff.rfl hooks trivial

/-- What the client does not have is none of the allocated queues. -/
theorem CaptureMemory.fifos_eq_none (memory : CaptureMemory jhash ncpu c task chains)
    (lacks : ¬task.HasQueue) (q : ℕ) : c.fifos q = none := by
  rw [← Option.not_isSome_iff_eq_none, memory.fifos]
  intro here
  apply lacks
  rw [memory.fifo, here]
  rfl

theorem CaptureMemory.tables_eq_none (memory : CaptureMemory jhash ncpu c task chains)
    (lacks : ¬task.HasTable) (t : ℕ) : c.tables t = none := by
  rw [← Option.not_isSome_iff_eq_none, memory.tables]
  exact fun has => lacks has.1

/-- The queue is freed at a place of the client that needs none. -/
theorem CaptureMemory.freeQueue (memory : CaptureMemory jhash ncpu c task chains)
    (only : ∀ other, c.ipFifo = some other → other = q) (table : task'.HasTable ↔ task.HasTable)
    (queue : ¬task'.HasQueue) (hooks : c.hooks = task'.hooks)
    (relies : task'.Relies jhash (c.freeQueue q) chains) :
    CaptureMemory jhash ncpu (c.freeQueue q) task' chains := by
  have gone : ∀ other, (c.freeQueue q).fifos other = none := by
    intro other
    by_cases same : other = q
    · simp only [same, Capture.freeQueue, Function.update_self]
    · simp only [Capture.freeQueue, Function.update_of_ne same]
      rw [← Option.not_isSome_iff_eq_none, memory.fifos]
      exact fun here => same (only other here)
  refine ⟨?_, ?_, ?_, ?_, ?_, memory.linked, ?_, memory.beyond, hooks, relies⟩
  · intro t
    rw [table]
    exact memory.tables t
  · exact fun has => memory.table (table.mp has)
  · intro other
    rw [gone]
    simp [Capture.freeQueue]
  · simp [queue, Capture.freeQueue]
  · intro other cpus here
    rw [gone] at here
    exact absurd here (by simp)
  · exact fun has => memory.bare fun before => has (table.mpr before)

/-- Where there is neither table nor queue, the pointer to the table is reset. -/
theorem CaptureMemory.forgets (memory : CaptureMemory jhash ncpu c task chains)
    (table : ¬task.HasTable) (queue : ¬task.HasQueue) (hooks : task.hooks = 0)
    (whiteBlack : Int) :
    CaptureMemory jhash ncpu { c with devHashtable := none, whiteBlack := whiteBlack } .closed
      chains := by
  have none := memory.tables_eq_none table
  refine ⟨?_, fun has => absurd has id, memory.fifos, ?_, memory.possible, ?_,
    fun _ => memory.bare table, memory.beyond, memory.hooks.trans hooks, rfl⟩
  · intro other
    rw [none other]
    exact iff_of_false (by simp) fun has => has.1
  · exact iff_of_false id (memory.fifo.not.mp queue)
  · intro other heads tabled
    exact absurd (table_eq_some_iff.mp tabled).1 (by simp)

/-- No queue is made, and the table is to go. -/
theorem CaptureMemory.noQueue (memory : CaptureMemory jhash ncpu c (.initQueue vmalloc) chains) :
    CaptureMemory jhash ncpu { c with ipFifo := none } (.clearing 0) chains := by
  have none := memory.fifos_eq_none id
  refine ⟨memory.tables, memory.table, ?_, iff_of_false id (by simp), memory.possible,
    memory.linked, memory.bare, memory.beyond, memory.hooks, ?_⟩
  · intro q
    rw [none q]
    simp
  · exact fun i below => absurd below (Nat.not_lt_zero i)

/-- The table is freed once every bucket is empty. -/
theorem CaptureMemory.freesTable {bucket table : ℕ}
    (memory : CaptureMemory jhash ncpu c (.clearing bucket) chains)
    (tabled : c.table = some (table, heads)) (most : 2 ^ devnameHashBits ≤ bucket) :
    CaptureMemory jhash ncpu { c with tables := Function.update c.tables table none } .forgetting
      chains := by
  have relies := memory.relies
  have current := (table_eq_some_iff.mp tabled).1
  have gone : ∀ other, Function.update c.tables table none other = none := by
    intro other
    by_cases same : other = table
    · rw [same, Function.update_self]
    · rw [Function.update_of_ne same, ← Option.not_isSome_iff_eq_none, memory.tables]
      rintro ⟨-, current'⟩
      rw [current, Option.some.injEq] at current'
      exact same current'.symm
  refine ⟨?_, fun has => absurd has id, memory.fifos, memory.fifo, memory.possible, ?_, ?_,
    memory.beyond, memory.hooks, trivial⟩
  · intro other
    simp only [gone other]
    exact iff_of_false (by simp) fun has => has.1
  · intro other heads' tabled'
    have present := (table_eq_some_iff.mp tabled').2
    simp only [gone other] at present
    exact absurd present (by simp)
  · intro _ i
    by_cases small : i < bucket
    · exact relies i small
    · exact memory.beyond i (le_trans most (not_lt.mp small))

theorem CaptureMemory.inits (memory : CaptureMemory jhash ncpu c (.initTable vmalloc) chains)
    (t : ℕ) :
    CaptureMemory jhash ncpu
      { c with
        devHashtable := some t
        tables := Function.update c.tables t (some fun _ => none) }
      (.initQueue vmalloc) chains := by
  have others := memory.tables_eq_none id
  have bare := memory.bare id
  refine ⟨?_, fun _ => rfl, memory.fifos, memory.fifo, memory.possible, ?_,
    fun has => absurd trivial has, memory.beyond, memory.hooks, trivial⟩
  · intro other
    by_cases same : other = t
    · simp [same, CaptureTask.HasTable]
    · simp [Function.update_of_ne same, others, CaptureTask.HasTable, Ne.symm same]
  · intro other heads here i
    rcases table_eq_some_iff.mp here with ⟨same, table⟩
    cases same
    simp only [Function.update_self, Option.some.injEq] at table
    rw [← table, bare i]
    rfl

theorem CaptureMemory.creates (memory : CaptureMemory jhash ncpu c (.initQueue vmalloc) chains)
    (q : ℕ) :
    CaptureMemory jhash ncpu
      { c with
        ipFifo := some q
        fifos := Function.update c.fifos q
          (some (List.replicate ncpu ⟨Kfifo.alloc ipFifoSize, false⟩)) }
      (.registering 0) chains := by
  have others := memory.fifos_eq_none id
  refine ⟨memory.tables, memory.table, ?_, iff_of_true trivial rfl, ?_, memory.linked,
    fun has => absurd trivial has, memory.beyond, memory.hooks, Nat.zero_le 6⟩
  · intro other
    by_cases same : other = q
    · simp [same]
    · simp [Function.update_of_ne same, others, Ne.symm same]
  · intro other cpus here
    by_cases same : other = q
    · simp only [same, Function.update_self, Option.some.injEq] at here
      rw [← here, List.length_replicate]
    · simp only [Function.update_of_ne same, others] at here
      exact absurd here (by simp)

/-- A bucket gets another chain, which its new head leads to. -/
theorem CaptureMemory.setHead (memory : CaptureMemory jhash ncpu c task chains)
    (nodes : ℕ → Option DevNode) {first : Option ℕ} {chain : List ℕ} {bucket : ℕ}
    (here : c.table = some (t, heads)) (inside : bucket < 2 ^ devnameHashBits)
    (next : ∀ i, i ≠ bucket → ∀ p ∈ chains i, (nodes p).map DevNode.next = c.nextOf p)
    (linked : Linked (fun p => (nodes p).map DevNode.next) first chain) (has : task.HasTable)
    (table : task'.HasTable) (queue : task'.HasQueue ↔ task.HasQueue)
    (hooks : c.hooks = task'.hooks)
    (relies : task'.Relies jhash ({ c with nodes := nodes }.setHead t heads bucket first)
      (Function.update chains bucket chain)) :
    CaptureMemory jhash ncpu ({ c with nodes := nodes }.setHead t heads bucket first) task'
      (Function.update chains bucket chain) := by
  rcases table_eq_some_iff.mp here with ⟨current, contents⟩
  refine ⟨?_, fun _ => memory.table has, memory.fifos, queue.trans memory.fifo, memory.possible, ?_,
    fun lacks => absurd table lacks, ?_, hooks, relies⟩
  · intro other
    by_cases same : other = t
    · rw [same]
      simpa [Capture.setHead] using ⟨table, current⟩
    · have before := memory.tables other
      simp only [Capture.setHead, Function.update_of_ne same, before]
      exact and_congr_left fun _ => iff_of_true has table
  · intro other heads' here' i
    rcases table_eq_some_iff.mp here' with ⟨current', contents'⟩
    have same : t = other := Option.some.inj (current.symm.trans current')
    subst same
    simp only [Capture.setHead, Function.update_self, Option.some.injEq] at contents'
    rw [← contents']
    by_cases own : i = bucket
    · subst own
      rw [Function.update_self, Function.update_self]
      exact linked
    · rw [Function.update_of_ne own, Function.update_of_ne own]
      exact (memory.linked t heads here i).congr (next i own)
  · intro i above
    rw [Function.update_of_ne (ne_of_gt (lt_of_lt_of_le inside above))]
    exact memory.beyond i above

end Memory

/-! ## Guests -/

section Guest

variable {c c' : Capture} {client client' : CaptureTask} {chains chains' : ℕ → List ℕ} {p : Packet}
  {task : HookTask}

/-- The buckets have the nodes they had, and new ones in front. -/
def Grows (c c' : Capture) (chains chains' : ℕ → List ℕ) : Prop :=
  ∀ i, (∃ more, chains' i = more ++ chains i) ∧ ∀ q ∈ chains i, c'.nodes q = c.nodes q

theorem SameMemory.grows (same : SameMemory c c' chains) : Grows c c' chains chains :=
  fun i => ⟨⟨[], rfl⟩, same.nodes i⟩

theorem Grows.at {i : ℕ} {pos : Option ℕ} (grows : Grows c c' chains chains')
    (walks : ∃ visited, At c.nextOf (chains i) visited pos) :
    ∃ visited, At c'.nextOf (chains' i) visited pos := by
  rcases walks with ⟨visited, walks⟩
  rcases grows i with ⟨⟨more, chain⟩, nodes⟩
  rw [chain]
  have kept := walks.congr fun q member => nextOf_congr (nodes q member)
  exact ⟨more ++ visited, kept.grow more⟩

theorem CaptureTask.Relies.frame (relies : client.Relies jhash c chains)
    (same : SameMemory c c' chains) (nodes : c'.nodes = c.nodes) :
    client.Relies jhash c' chains := by
  cases client with
  | closed | initTable => exact same.table.trans relies
  | seeking name rest pos => exact same.grows.at relies
  | publishing name rest newnode =>
      rcases relies with ⟨table, heads, tabled, links⟩
      refine ⟨table, heads, same.table_eq.trans tabled, ?_⟩
      rw [Capture.nextOf, nodes]
      exact links
  | _ => exact relies

theorem HookTask.Relies.carry (relies : task.Relies jhash c chains)
    (table : c'.devHashtable = c.devHashtable) (fifo : c'.ipFifo = c.ipFifo)
    (grows : Grows c c' chains chains') : task.Relies jhash c' chains' := by
  cases task with
  | gating dev left kept | heading dev left kept => exact Eq.trans relies table.symm
  | walking dev left pos => exact grows.at relies
  | queueing info kept | counting put kept | counted put kept pkts | alarming kept =>
      exact Eq.trans relies fifo.symm
  | _ => trivial

theorem Guest.carry (guest : Guest jhash ncpu c client chains p task)
    (hook : ∀ i < client.mayRun, p.hooknum = some i → i < client'.mayRun)
    (table : c'.devHashtable = c.devHashtable) (fifo : c'.ipFifo = c.ipFifo)
    (grows : Grows c c' chains chains') : Guest jhash ncpu c' client' chains' p task := by
  rcases guest.hook with ⟨i, below, place⟩
  exact ⟨⟨i, hook i below place, place⟩, guest.possible, guest.relies.carry table fifo grows⟩

/-- A client that lets hooks run has the table and the queue. -/
theorem hasQueue_of_mayRun (runs : 0 < client.mayRun) : client.HasTable ∧ client.HasQueue := by
  cases client with
  | closed | initTable | initQueue | exitQueue | clearing | freeing | forgetting =>
      exact absurd runs (by simp [CaptureTask.mayRun, CaptureTask.hooks])
  | _ => exact ⟨trivial, trivial⟩

theorem Guest.hasQueue (guest : Guest jhash ncpu c client chains p task) :
    client.HasTable ∧ client.HasQueue := by
  rcases guest.hook with ⟨i, below, -⟩
  exact hasQueue_of_mayRun (Nat.zero_lt_of_lt below)

end Guest

end Linguafranca.Ipshark
