import Linguafranca.Ipshark.Capture

/-!
# What a step of a hook or of the client can do

A thread whose memory is there (`CapturePc.Usable`) takes one of the steps of `CaptureTook`,
each with what the thread saw and what it left. Most steps of a hook only look.
-/

namespace Linguafranca.Ipshark

variable {jhash : List UInt8 → UInt32 → UInt32} {ncpu : ℕ} {c : Capture}

/-- What a packet needs of the memory for its next step. -/
def HookTask.Usable (c : Capture) (p : Packet) : HookTask → Prop
  | heading _ _ table => (table.bind c.tables).isSome
  | walking _ _ (some pos) => (c.nodes pos).isSome
  | queueing _ fifo | alarming fifo =>
      ∃ q cpus, c.cpuFifos fifo = some (q, cpus) ∧ p.cpu < cpus.length
  | returning => p.hooknum.isSome
  | _ => True

/-- What the client needs of the memory for its next step. -/
def CaptureTask.Usable (c : Capture) : CaptureTask → Prop
  | naming (_ :: _) | publishing _ _ _ | clearing _ => c.table.isSome
  | seeking _ _ (some pos) => (c.nodes pos).isSome
  | linking _ _ newnode => c.table.isSome ∧ (c.nodes newnode).isSome
  | moving _ _ copied infonum =>
      (c.cpuFifos c.ipFifo).isSome ∧ copied.length + infonum ≤ 1024
  | exitQueue => ∀ q, c.ipFifo = some q → (c.fifos q).isSome
  | freeing _ pos => c.table.isSome ∧ (c.nodes pos).isSome
  | _ => True

/-- The next step of the thread uses allocated memory only. -/
def CapturePc.Usable (c : Capture) : CapturePc → Prop
  | hook p task => task.Usable c p
  | client task => task.Usable c
  | fault => False
  | resting => True

/-- A step of a packet that changes nothing but how far it has come. -/
inductive HookLooks (jhash : List UInt8 → UInt32 → UInt32) (c : Capture) (p : Packet) :
    HookTask → HookTask → Prop where
  | waits (task : HookTask) : HookLooks jhash c p task task
  | begins : p.header.isSome → HookLooks jhash c p .arrived (.ignoring p.devices)
  | passes : p.header = none → HookLooks jhash c p .arrived .returning
  | ignores : HookLooks jhash c p (.ignoring []) .returning
  | looksUp (dev : NetDevice) (left : List NetDevice) :
      HookLooks jhash c p (.ignoring (dev :: left)) (.gating dev left c.devHashtable)
  | unset (dev : NetDevice) (left : List NetDevice) (table : Option ℕ) :
      c.whiteBlack = ipsNone → HookLooks jhash c p (.gating dev left table) (.ignoring left)
  | gates (dev : NetDevice) (left : List NetDevice) (table : Option ℕ) :
      c.whiteBlack ≠ ipsNone →
      HookLooks jhash c p (.gating dev left table) (.heading dev left table)
  | heads (dev : NetDevice) (left : List NetDevice) (table : Option ℕ) (first : ℕ → Option ℕ) :
      table.bind c.tables = some first →
      HookLooks jhash c p (.heading dev left table)
        (.walking dev left (first (smallJhash (devHash jhash dev.name.toList))))
  | misses (dev : NetDevice) (left : List NetDevice) :
      HookLooks jhash c p (.walking dev left none) (.deciding dev left false)
  | finds (dev : NetDevice) (left : List NetDevice) (pos : ℕ) (node : DevNode) :
      c.nodes pos = some node →
      node.entry.isFor dev.name.toList (devHash jhash dev.name.toList) = true →
      HookLooks jhash c p (.walking dev left (some pos)) (.deciding dev left true)
  | walks (dev : NetDevice) (left : List NetDevice) (pos : ℕ) (node : DevNode) :
      c.nodes pos = some node →
      node.entry.isFor dev.name.toList (devHash jhash dev.name.toList) = false →
      HookLooks jhash c p (.walking dev left (some pos)) (.walking dev left node.next)
  | decides (dev : NetDevice) (left : List NetDevice) (found : Bool) :
      c.whiteBlack = (if found then ipsBlack else ipsWhite) →
      HookLooks jhash c p (.deciding dev left found) (.ignoring left)
  | notices (dev : NetDevice) (left : List NetDevice) (found : Bool) :
      c.whiteBlack ≠ (if found then ipsBlack else ipsWhite) →
      HookLooks jhash c p (.deciding dev left found) .filling
  | accepts : p.filled = none → HookLooks jhash c p .filling .returning
  | fills (info : IpKeyInfo) : p.filled = some info →
      HookLooks jhash c p .filling (.entering info)
  | noQueue (info : IpKeyInfo) : c.ipFifo = none →
      HookLooks jhash c p (.entering info) .returning
  | enters (info : IpKeyInfo) : HookLooks jhash c p (.entering info) (.disabling info)
  | readsCount (put : Bool) (fifo : Option ℕ) : HookLooks jhash c p (.counting put fifo)
      (.counted put fifo (if put then c.putPkts else c.unQueuedPkts))

/-- A step of the client that changes nothing but how far it has come. -/
inductive CaptureLooks (jhash : List UInt8 → UInt32 → UInt32) (c : Capture) :
    CaptureTask → CaptureTask → Prop where
  | waits (task : CaptureTask) : CaptureLooks jhash c task task
  | registered {hook : ℕ} : 6 ≤ hook → CaptureLooks jhash c (.registering hook) .ready
  | refuses (args : SetArgs) : CaptureLooks jhash c (.configuring args) (.restoring .opened)
  | named : CaptureLooks jhash c (.naming []) .ready
  | heads (name : Devname) (rest : List Devname) (t : ℕ) (heads : ℕ → Option ℕ) :
      c.table = some (t, heads) →
      CaptureLooks jhash c (.naming (name :: rest))
        (.seeking name rest (heads (bucketOf jhash name rest)))
  | misses (name : Devname) (rest : List Devname) :
      CaptureLooks jhash c (.seeking name rest none) (.allocating name rest)
  | finds (name : Devname) (rest : List Devname) (pos : ℕ) (node : DevNode) :
      c.nodes pos = some node →
      node.entry.isFor (namesFrom name rest) (devHash jhash (namesFrom name rest)) = true →
      CaptureLooks jhash c (.seeking name rest (some pos)) (.naming rest)
  | walks (name : Devname) (rest : List Devname) (pos : ℕ) (node : DevNode) :
      c.nodes pos = some node →
      node.entry.isFor (namesFrom name rest) (devHash jhash (namesFrom name rest)) = false →
      CaptureLooks jhash c (.seeking name rest (some pos)) (.seeking name rest node.next)
  | noMemory (name : Devname) (rest : List Devname) :
      CaptureLooks jhash c (.allocating name rest) (.naming rest)
  | refusesFetch (args : FetchArgs) : CaptureLooks jhash c (.fetching args) (.restoring .nameSet)
  | noQueue (args : FetchArgs) : c.ipFifo = none →
      CaptureLooks jhash c (.fetching args) (.copying args [])
  | fetches (args : FetchArgs) : ¬args.Refused → c.ipFifo ≠ none →
      CaptureLooks jhash c (.fetching args) (.moving args 0 [] args.n.toNat)
  | skips (args : FetchArgs) (cpu : ℕ) (copied : List IpKeyInfo) (infonum : ℕ) :
      CaptureLooks jhash c (.moving args cpu copied infonum)
        (.moving args (cpu + 1) copied infonum)
  | ends (args : FetchArgs) (cpu : ℕ) (copied : List IpKeyInfo) (infonum : ℕ) :
      CaptureLooks jhash c (.moving args cpu copied infonum) (.moved args copied)
  | copies (args : FetchArgs) (copied : List IpKeyInfo) :
      CaptureLooks jhash c (.copying args copied) (.restoring .nameSet)
  | synchronizes (hook : ℕ) : c.running hook = 0 →
      CaptureLooks jhash c (.synchronizing hook)
        (if hook = 0 then .exitQueue else .unregistering (hook - 1))
  | noExit : c.ipFifo = none → CaptureLooks jhash c .exitQueue (.clearing 0)
  | cleared (bucket t : ℕ) (heads : ℕ → Option ℕ) : c.table = some (t, heads) →
      bucket < 2 ^ devnameHashBits → heads bucket = none →
      CaptureLooks jhash c (.clearing bucket) (.clearing (bucket + 1))
  | clears (bucket t : ℕ) (heads : ℕ → Option ℕ) (pos : ℕ) : c.table = some (t, heads) →
      bucket < 2 ^ devnameHashBits → heads bucket = some pos →
      CaptureLooks jhash c (.clearing bucket) (.freeing bucket pos)

/-- Where a fetch goes on after a CPU. -/
inductive FetchesOn (args : FetchArgs) (cpu : ℕ) (copied : List IpKeyInfo) :
    CaptureTask → Prop where
  | full : FetchesOn args cpu copied (.moved args copied)
  | next : FetchesOn args cpu copied
      (.moving args (cpu + 1) copied (args.n - UInt32.ofNat copied.length).toNat)

/-- One step of a thread, on the memory and the thread. -/
inductive CaptureTook (jhash : List UInt8 → UInt32 → UInt32) (ncpu : ℕ) (c : Capture) :
    CapturePc → Capture → CapturePc → Prop where
  | stays (pc : CapturePc) : CaptureTook jhash ncpu c pc c pc
  | arrives (p : Packet) (hook : ℕ) : p.hooknum = some hook → hook < c.hooks → p.cpu < ncpu →
      CaptureTook jhash ncpu c .resting
        { c with running := Function.update c.running hook (c.running hook + 1) }
        (.hook p .arrived)
  | looks (p : Packet) {task task' : HookTask} : HookLooks jhash c p task task' →
      CaptureTook jhash ncpu c (.hook p task) c (.hook p task')
  | disables (p : Packet) (info : IpKeyInfo) : c.putting p.cpu = false →
      CaptureTook jhash ncpu c (.hook p (.disabling info)) (c.setPutting p.cpu true)
        (.hook p (.queueing info c.ipFifo))
  | puts (p : Packet) (info : IpKeyInfo) (fifo : Option ℕ) (q : ℕ) (cpus : List CpuFifo)
      (f : CpuFifo) : c.cpuFifos fifo = some (q, cpus) → cpus[p.cpu]? = some f →
      CaptureTook jhash ncpu c (.hook p (.queueing info fifo))
        (c.setFifo q p.cpu cpus { f with fifo := (f.fifo.put info).2 })
        (.hook p (.counting (f.fifo.put info).1 fifo))
  | counts (p : Packet) (put : Bool) (fifo : Option ℕ) (pkts : ℕ) :
      CaptureTook jhash ncpu c (.hook p (.counted put fifo pkts))
        (if put then { c with putPkts := pkts + 1 } else { c with unQueuedPkts := pkts + 1 })
        (.hook p (.alarming fifo))
  | alarms (p : Packet) (fifo : Option ℕ) (q : ℕ) (cpus : List CpuFifo) (f : CpuFifo) :
      c.cpuFifos fifo = some (q, cpus) → cpus[p.cpu]? = some f →
      CaptureTook jhash ncpu c (.hook p (.alarming fifo)) (c.setFifo q p.cpu cpus (updateAlarm f))
        (.hook p .leaving)
  | leaves (p : Packet) :
      CaptureTook jhash ncpu c (.hook p .leaving) (c.setPutting p.cpu false) (.hook p .returning)
  | returns (p : Packet) (hook : ℕ) : p.hooknum = some hook →
      CaptureTook jhash ncpu c (.hook p .returning)
        { c with running := Function.update c.running hook (c.running hook - 1) } .resting
  | clientLooks {task task' : CaptureTask} : CaptureLooks jhash c task task' →
      CaptureTook jhash ncpu c (.client task) c (.client task')
  | opens (vmalloc : List Bool) : c.devState = .close →
      CaptureTook jhash ncpu c (.client .closed) { c with devState := .opened }
        (.client (.initTable vmalloc))
  | noTable (vmalloc : List Bool) :
      CaptureTook jhash ncpu c (.client (.initTable vmalloc)) { c with devHashtable := none }
        (.client .closed)
  | inits (vmalloc : List Bool) (t : ℕ) : c.tables t = none →
      CaptureTook jhash ncpu c (.client (.initTable vmalloc))
        { c with
          devHashtable := some t
          tables := Function.update c.tables t (some fun _ => none) }
        (.client (.initQueue vmalloc))
  | noPercpu (vmalloc : List Bool) :
      CaptureTook jhash ncpu c (.client (.initQueue vmalloc)) { c with ipFifo := none }
        (.client (.clearing 0))
  | undoes (vmalloc : List Bool) (q : ℕ) : c.fifos q = none →
      CaptureTook jhash ncpu c (.client (.initQueue vmalloc)) (c.freeQueue q)
        (.client (.clearing 0))
  | creates (vmalloc : List Bool) (q : ℕ) : c.fifos q = none →
      CaptureTook jhash ncpu c (.client (.initQueue vmalloc))
        { c with
          ipFifo := some q
          fifos := Function.update c.fifos q
            (some (List.replicate ncpu ⟨Kfifo.alloc ipFifoSize, false⟩)) }
        (.client (.registering 0))
  | registers (hook : ℕ) : hook < 6 →
      CaptureTook jhash ncpu c (.client (.registering hook)) { c with hooks := hook + 1 }
        (.client (.registering (hook + 1)))
  | enters (task : CaptureTask) (new : DevState) :
      (∃ args, task = .configuring args ∧ c.devState = .opened ∧ new = .nameSet) ∨
        (∃ args, task = .fetching args ∧ c.devState = .nameSet ∧ new = .run) →
      CaptureTook jhash ncpu c (.client .ready) { c with devState := new } (.client task)
  | configures (args : SetArgs) : c.whiteBlack = ipsNone → args.whiteBlack ≠ ipsNone →
      CaptureTook jhash ncpu c (.client (.configuring args))
        { c with whiteBlack := args.whiteBlack }
        (.client (.naming ((List.range args.devnum.toNat).map args.names)))
  | allocates (name : Devname) (rest : List Devname) (p : ℕ) : c.nodes p = none →
      CaptureTook jhash ncpu c (.client (.allocating name rest))
        (c.setNode p (some ⟨⟨name, devHash jhash (namesFrom name rest)⟩, none⟩))
        (.client (.linking name rest p))
  | links (name : Devname) (rest : List Devname) (p t : ℕ) (heads : ℕ → Option ℕ)
      (node : DevNode) : c.table = some (t, heads) → c.nodes p = some node →
      CaptureTook jhash ncpu c (.client (.linking name rest p))
        (c.setNode p (some { node with next := heads (bucketOf jhash name rest) }))
        (.client (.publishing name rest p))
  | publishes (name : Devname) (rest : List Devname) (p t : ℕ) (heads : ℕ → Option ℕ) :
      c.table = some (t, heads) →
      CaptureTook jhash ncpu c (.client (.publishing name rest p))
        (c.setHead t heads (bucketOf jhash name rest) (some p)) (.client (.naming rest))
  | moves (args : FetchArgs) (cpu : ℕ) (copied : List IpKeyInfo) (infonum q : ℕ)
      (cpus : List CpuFifo) (f : CpuFifo) {task : CaptureTask} :
      c.cpuFifos c.ipFifo = some (q, cpus) → cpus[cpu]? = some f →
      FetchesOn args cpu (copied ++ (f.fifo.out infonum).1) task →
      CaptureTook jhash ncpu c (.client (.moving args cpu copied infonum))
        (c.setFifo q cpu cpus { f with fifo := (f.fifo.out infonum).2 }) (.client task)
  | countsGets (args : FetchArgs) (copied : List IpKeyInfo) :
      CaptureTook jhash ncpu c (.client (.moved args copied))
        { c with getPkts := c.getPkts + copied.length } (.client (.copying args copied))
  | restores (new : DevState) :
      CaptureTook jhash ncpu c (.client (.restoring new)) { c with devState := new }
        (.client .ready)
  | closes : CaptureTook jhash ncpu c (.client .ready) { c with devState := .close }
      (.client (.unregistering 5))
  | unregisters (hook : ℕ) :
      CaptureTook jhash ncpu c (.client (.unregistering hook)) { c with hooks := hook }
        (.client (.synchronizing hook))
  | exits (q : ℕ) : c.ipFifo = some q →
      CaptureTook jhash ncpu c (.client .exitQueue) (c.freeQueue q) (.client (.clearing 0))
  | frees (bucket t : ℕ) (heads : ℕ → Option ℕ) (pos : ℕ) (node : DevNode) :
      c.table = some (t, heads) → c.nodes pos = some node →
      CaptureTook jhash ncpu c (.client (.freeing bucket pos))
        ((c.setNode pos none).setHead t heads bucket node.next) (.client (.clearing bucket))
  | freesTable (bucket t : ℕ) (heads : ℕ → Option ℕ) : c.table = some (t, heads) →
      2 ^ devnameHashBits ≤ bucket →
      CaptureTook jhash ncpu c (.client (.clearing bucket))
        { c with tables := Function.update c.tables t none } (.client .forgetting)
  | forgets : CaptureTook jhash ncpu c (.client .forgetting)
      { c with devHashtable := none, whiteBlack := ipsNone } (.client .closed)

theorem allocated_eq_some {Item : Type*} {memory : ℕ → Option Item} {pointer : Option ℕ} {p : ℕ}
    (got : allocated memory pointer = some p) : memory p = none := by
  rw [allocated, Option.filter_eq_some_iff] at got
  exact Option.isNone_iff_eq_none.mp got.2

theorem took_hookNext {p : Packet} {task : HookTask} (usable : task.Usable c p) :
    CaptureTook jhash ncpu c (.hook p task) (hookNext jhash c p task).1
      (hookNext jhash c p task).2 := by
  cases task with
  | arrived =>
      rw [hookNext]
      by_cases header : p.header.isSome
      · rw [if_pos header]
        exact .looks p (.begins header)
      · rw [if_neg header]
        exact .looks p (.passes (Option.not_isSome_iff_eq_none.mp header))
  | ignoring left =>
      cases left with
      | nil => exact .looks p .ignores
      | cons dev left => exact .looks p (.looksUp dev left)
  | gating dev left table =>
      rw [hookNext]
      by_cases unset : c.whiteBlack = ipsNone
      · rw [if_pos unset]
        exact .looks p (.unset dev left table unset)
      · rw [if_neg unset]
        exact .looks p (.gates dev left table unset)
  | heading dev left table =>
      rcases Option.isSome_iff_exists.mp usable with ⟨first, here⟩
      simp only [hookNext, here]
      exact .looks p (.heads dev left table first here)
  | walking dev left pos =>
      cases pos with
      | none => exact .looks p (.misses dev left)
      | some pos =>
          rcases Option.isSome_iff_exists.mp usable with ⟨node, here⟩
          simp only [hookNext, here]
          split
          · next found => exact .looks p (.finds dev left pos node here found)
          · next other =>
              exact .looks p (.walks dev left pos node here (Bool.eq_false_iff.mpr other))
  | deciding dev left found =>
      rw [hookNext]
      cases found <;> simp only [Bool.false_eq_true, if_true, if_false, decide_eq_true_eq]
      all_goals split
      · next same => exact .looks p (.decides dev left false same)
      · next differ => exact .looks p (.notices dev left false differ)
      · next same => exact .looks p (.decides dev left true same)
      · next differ => exact .looks p (.notices dev left true differ)
  | filling =>
      rw [hookNext]
      cases made : p.filled with
      | none => exact .looks p (.accepts made)
      | some info => exact .looks p (.fills info made)
  | entering info =>
      rw [hookNext]
      by_cases queue : c.ipFifo.isSome
      · rw [if_pos queue]
        exact .looks p (.enters info)
      · rw [if_neg queue]
        exact .looks p (.noQueue info (Option.not_isSome_iff_eq_none.mp queue))
  | disabling info =>
      rw [hookNext]
      split
      · exact .looks p (.waits _)
      · next free => exact .disables p info (Bool.eq_false_iff.mpr free)
  | queueing info fifo =>
      rcases usable with ⟨q, cpus, here, possible⟩
      have present := List.getElem?_eq_getElem possible
      simp only [hookNext, here, present]
      exact .puts p info fifo q cpus _ here present
  | counting put fifo => exact .looks p (.readsCount put fifo)
  | counted put fifo pkts => exact .counts p put fifo pkts
  | alarming fifo =>
      rcases usable with ⟨q, cpus, here, possible⟩
      have present := List.getElem?_eq_getElem possible
      simp only [hookNext, here, present]
      exact .alarms p fifo q cpus _ here present
  | leaving => exact .leaves p
  | returning =>
      rcases Option.isSome_iff_exists.mp usable with ⟨hook, here⟩
      simp only [hookNext, here]
      exact .returns p hook here

theorem took_captureNext (pointer : Option ℕ) {task : CaptureTask} (usable : task.Usable c) :
    CaptureTook jhash ncpu c (.client task) (captureNext jhash ncpu c pointer task).1
      (captureNext jhash ncpu c pointer task).2 := by
  cases task with
  | closed | ready => exact .stays _
  | initTable vmalloc =>
      rw [captureNext]
      cases got : allocated c.tables pointer with
      | none => exact .noTable vmalloc
      | some t => exact .inits vmalloc t (allocated_eq_some got)
  | initQueue vmalloc =>
      rw [captureNext]
      cases got : allocated c.fifos pointer with
      | none => exact .noPercpu vmalloc
      | some q =>
          simp only
          split
          · exact .creates vmalloc q (allocated_eq_some got)
          · exact .undoes vmalloc q (allocated_eq_some got)
  | registering hook =>
      rw [captureNext]
      by_cases more : hook < 6
      · rw [if_pos more]
        exact .registers hook more
      · rw [if_neg more]
        exact .clientLooks (.registered (not_lt.mp more))
  | configuring args =>
      rw [captureNext]
      split
      · exact .clientLooks (.refuses args)
      · next passed =>
          simp only [SetArgs.Refused, not_or, not_not] at passed
          exact .configures args passed.2.2.2.2.2.2.1 passed.2.2.2.2.2.2.2
  | naming names =>
      cases names with
      | nil => exact .clientLooks .named
      | cons name rest =>
          rcases Option.isSome_iff_exists.mp usable with ⟨⟨t, heads⟩, here⟩
          simp only [captureNext, here]
          exact .clientLooks (.heads name rest t heads here)
  | seeking name rest pos =>
      cases pos with
      | none => exact .clientLooks (.misses name rest)
      | some pos =>
          rcases Option.isSome_iff_exists.mp usable with ⟨node, here⟩
          simp only [captureNext, here]
          split
          · next found => exact .clientLooks (.finds name rest pos node here found)
          · next other =>
              exact .clientLooks (.walks name rest pos node here (Bool.eq_false_iff.mpr other))
  | allocating name rest =>
      rw [captureNext]
      cases got : allocated c.nodes pointer with
      | none => exact .clientLooks (.noMemory name rest)
      | some p => exact .allocates name rest p (allocated_eq_some got)
  | linking name rest newnode =>
      rcases Option.isSome_iff_exists.mp usable.1 with ⟨⟨t, heads⟩, table⟩
      rcases Option.isSome_iff_exists.mp usable.2 with ⟨node, here⟩
      simp only [captureNext, table, here]
      exact .links name rest newnode t heads node table here
  | publishing name rest newnode =>
      rcases Option.isSome_iff_exists.mp usable with ⟨⟨t, heads⟩, here⟩
      simp only [captureNext, here]
      exact .publishes name rest newnode t heads here
  | fetching args =>
      rw [captureNext]
      split
      · exact .clientLooks (.refusesFetch args)
      · next granted =>
          split
          · next none => exact .clientLooks (.noQueue args none)
          · next some => exact .clientLooks (.fetches args granted some)
  | moving args cpu copied infonum =>
      rcases usable with ⟨queue, fits⟩
      rcases Option.isSome_iff_exists.mp queue with ⟨⟨q, cpus⟩, here⟩
      simp only [captureNext, here]
      cases present : cpus[cpu]? with
      | none => exact .clientLooks (.ends args cpu copied infonum)
      | some f =>
          have within : ¬1024 < (copied ++ (f.fifo.out infonum).1).length := by
            simp only [Kfifo.out, List.length_append, List.length_take]
            omega
          simp only [if_neg within]
          split
          · exact .clientLooks (.skips args cpu copied infonum)
          · split
            · exact .moves args cpu copied infonum q cpus f here present .full
            · exact .moves args cpu copied infonum q cpus f here present .next
  | moved args copied => exact .countsGets args copied
  | copying args copied => exact .clientLooks (.copies args copied)
  | restoring new => exact .restores new
  | unregistering hook => exact .unregisters hook
  | synchronizing hook =>
      rw [captureNext]
      split
      · next none => exact .clientLooks (.synchronizes hook none)
      · exact .stays _
  | exitQueue =>
      rw [captureNext]
      cases queue : c.ipFifo with
      | none => exact .clientLooks (.noExit queue)
      | some q =>
          rcases Option.isSome_iff_exists.mp (usable q queue) with ⟨cpus, here⟩
          simp only [here]
          exact .exits q queue
  | clearing bucket =>
      rcases Option.isSome_iff_exists.mp usable with ⟨⟨t, heads⟩, table⟩
      simp only [captureNext, table]
      split
      · next more =>
          cases first : heads bucket with
          | none => exact .clientLooks (.cleared bucket t heads table more first)
          | some pos => exact .clientLooks (.clears bucket t heads pos table more first)
      · next done => exact .freesTable bucket t heads table (not_lt.mp done)
  | freeing bucket pos =>
      rcases Option.isSome_iff_exists.mp usable.1 with ⟨⟨t, heads⟩, table⟩
      rcases Option.isSome_iff_exists.mp usable.2 with ⟨node, here⟩
      simp only [captureNext, table, here]
      exact .frees bucket t heads pos node table here
  | forgetting => exact .forgets

theorem took_captureAct (pc : CapturePc) (act : CaptureAct) (usable : pc.Usable c) :
    CaptureTook jhash ncpu c pc (captureAct jhash ncpu c pc act).1
      (captureAct jhash ncpu c pc act).2 := by
  cases act with
  | packet p =>
      cases pc with
      | resting =>
          rw [captureAct]
          cases place : p.hooknum with
          | none => exact .stays _
          | some hook =>
              simp only
              split
              · next comes => exact .arrives p hook place comes.1 comes.2
              · exact .stays _
      | _ => exact .stays _
  | «open» vmalloc =>
      cases pc with
      | client task =>
          cases task with
          | closed =>
              rw [captureAct]
              split
              · next free => exact .opens vmalloc free
              · exact .stays _
          | _ => exact .stays _
      | _ => exact .stays _
  | setNamelist args =>
      cases pc with
      | client task =>
          cases task with
          | ready =>
              rw [captureAct]
              split
              · next state => exact .enters _ _ (Or.inl ⟨args, rfl, state, rfl⟩)
              · exact .stays _
          | _ => exact .stays _
      | _ => exact .stays _
  | fetch args =>
      cases pc with
      | client task =>
          cases task with
          | ready =>
              rw [captureAct]
              split
              · next state => exact .enters _ _ (Or.inr ⟨args, rfl, state, rfl⟩)
              · exact .stays _
          | _ => exact .stays _
      | _ => exact .stays _
  | release =>
      cases pc with
      | client task =>
          cases task with
          | ready => exact .closes
          | _ => exact .stays _
      | _ => exact .stays _
  | next pointer =>
      cases pc with
      | hook p task => exact took_hookNext usable
      | client task => exact took_captureNext pointer usable
      | _ => exact .stays _

end Linguafranca.Ipshark
