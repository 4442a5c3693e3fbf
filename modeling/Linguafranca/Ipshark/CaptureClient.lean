import Linguafranca.Ipshark.CaptureMemory

/-!
# The steps of the client

A step of the client keeps the invariant: while it opens the device, while it adds names and
fetches among the packets, and while it closes the device. Where a step takes something from
the memory, no packet is in a hook any more.
-/

namespace Linguafranca.Ipshark

open Run Interleaving Chain

variable {jhash : List UInt8 → UInt32 → UInt32} {ncpu : ℕ}

section Step

variable {s : Captures} {chains chains' : ℕ → List ℕ} {t : ℕ} {c' : Capture}
  {task task' : CaptureTask} {p : Packet} {hook hook' : HookTask} {pc' : CapturePc}

theorem mem_entries_iff {size q : ℕ} :
    q ∈ Buckets.entries size chains ↔ ∃ i < size, q ∈ chains i := by
  simp [Buckets.entries]

theorem CaptureInv.mem_entries (inv : CaptureInv jhash ncpu s chains) {i q : ℕ}
    (member : q ∈ chains i) : q ∈ Buckets.entries (2 ^ devnameHashBits) chains := by
  by_cases inside : i < 2 ^ devnameHashBits
  · exact mem_entries_iff.mpr ⟨i, inside, member⟩
  · rw [inv.memory.beyond i (not_lt.mp inside)] at member
    exact absurd member List.not_mem_nil

theorem CaptureInv.isSome_of_mem (inv : CaptureInv jhash ncpu s chains) {i q : ℕ}
    (member : q ∈ chains i) : (s.shared.nodes q).isSome :=
  inv.custody.kept q (inv.mem_entries member)

/-- The thread that is the client. -/
theorem CaptureInv.eq_zero (inv : CaptureInv jhash ncpu s chains) (here : s.pc t = .client task) :
    t = 0 := by
  rw [← inv.one t, here]
  trivial

theorem CaptureInv.task_eq (inv : CaptureInv jhash ncpu s chains) (here : s.pc t = .client task) :
    (s.pc 0).task = task := by
  rw [← inv.eq_zero here, here]
  rfl

theorem CaptureInv.client_move (inv : CaptureInv jhash ncpu s chains)
    (here : s.pc t = .client task) (putting : c'.putting = s.shared.putting)
    (running : c'.running = s.shared.running) (memory : CaptureMemory jhash ncpu c' task' chains')
    (custody : Custody {q | (c'.nodes q).isSome} (Buckets.entries (2 ^ devnameHashBits) chains')
      (Function.update (fun u => (s.pc u).owns) t task'.owns) fun _ => none)
    (guests : ∀ p hook, Guest jhash ncpu s.shared task chains p hook →
      (∃ u, s.pc u = .hook p hook) → Guest jhash ncpu c' task' chains' p hook) :
    CaptureInv jhash ncpu (s.move t c' (.client task')) chains' := by
  have zero := inv.eq_zero here
  have now : ((s.move t c' (.client task')).pc 0).task = task' := by
    rw [← zero, pc_move_self]
    rfl
  refine ⟨?_, ?_, ?_, ?_, ?_, ?_, ?_⟩
  · intro u
    by_cases same : u = t
    · rw [same, pc_move_self]
      exact iff_of_true trivial zero
    · rw [pc_move_of_ne same]
      exact inv.one u
  · have cpu : (CapturePc.client task').cpu = (s.pc t).cpu := by
      rw [here]
      rfl
    rw [shared_move, putting, read_move_of_eq s t c' (.client task') CapturePc.cpu cpu]
    exact inv.claims
  · intro i
    rw [shared_move, running, inside_move_of_iff]
    · exact inv.counts i
    · rw [here]
      exact Iff.rfl
  · rw [now]
    exact memory
  · rw [read_move]
    exact custody
  · intro u p hook found
    rw [now]
    have other : u ≠ t := by
      intro same
      rw [same, pc_move_self] at found
      exact absurd found (by simp)
    rw [pc_move_of_ne other] at found
    have guest := inv.guests u p hook found
    rw [inv.task_eq here] at guest
    exact guests p hook guest ⟨u, found⟩
  · intro u
    by_cases same : u = t
    · rw [same, pc_move_self]
      simp
    · rw [pc_move_of_ne same]
      exact inv.sound u

/-- The client goes on with the same nodes. -/
theorem CaptureInv.client_keep (inv : CaptureInv jhash ncpu s chains)
    (here : s.pc t = .client task) (putting : c'.putting = s.shared.putting)
    (running : c'.running = s.shared.running) (nodes : c'.nodes = s.shared.nodes)
    (memory : CaptureMemory jhash ncpu c' task' chains) (owns : task'.owns = task.owns)
    (guests : ∀ p hook, Guest jhash ncpu s.shared task chains p hook →
      (∃ u, s.pc u = .hook p hook) → Guest jhash ncpu c' task' chains p hook) :
    CaptureInv jhash ncpu (s.move t c' (.client task')) chains := by
  refine inv.client_move here putting running memory ?_ guests
  have mine : (s.pc t).owns = task'.owns := by
    rw [owns, here]
    rfl
  rw [← mine, nodes, Function.update_eq_self]
  exact inv.custody

/-- While no hook may run there is no packet in one. -/
theorem no_guests (quiet : task.mayRun = 0) {c : Capture} :
    ∀ p hook, Guest jhash ncpu s.shared task chains p hook →
      (∃ u, s.pc u = .hook p hook) → Guest jhash ncpu c task' chains' p hook := by
  intro p hook guest
  rcases guest.hook with ⟨i, below, -⟩
  rw [quiet] at below
  exact absurd below (Nat.not_lt_zero i)

theorem guests_carry (bound : task.mayRun ≤ task'.mayRun)
    (table : c'.devHashtable = s.shared.devHashtable) (fifo : c'.ipFifo = s.shared.ipFifo)
    (grows : Grows s.shared c' chains chains') :
    ∀ p hook, Guest jhash ncpu s.shared task chains p hook →
      (∃ u, s.pc u = .hook p hook) → Guest jhash ncpu c' task' chains' p hook := by
  intro p hook guest _
  exact guest.carry (fun i below _ => lt_of_lt_of_le below bound) table fifo grows

theorem CaptureLooks.owns_eq (looks : CaptureLooks jhash s.shared task task') :
    task'.owns = task.owns := by
  cases looks with
  | synchronizes hook => by_cases last : hook = 0 <;> simp [last, CaptureTask.owns]
  | _ => rfl

/-- The client goes past a hook once no packet is in it. -/
theorem CaptureInv.client_looks (inv : CaptureInv jhash ncpu s chains)
    (here : s.pc t = .client task) (looks : CaptureLooks jhash s.shared task task') :
    CaptureInv jhash ncpu (s.move t s.shared (.client task')) chains := by
  have memory := inv.memory
  rw [inv.task_eq here] at memory
  refine inv.client_keep here rfl rfl rfl (memory.looks looks) looks.owns_eq ?_
  have relies := memory.relies
  have grows := (SameMemory.refl s.shared chains).grows
  cases looks with
  | registered most => exact guests_carry relies rfl rfl grows
  | synchronizes hook none =>
      intro p task guest ⟨u, found⟩
      apply guest.carry ?_ rfl rfl grows
      intro i below place
      -- The count of the hook says that nobody is in it.
      have empty := (inv.counts hook).eq_zero_iff.mp none
      have differ : i ≠ hook := by
        intro same
        rw [same] at place
        have member : u ∈ inside (CapturePc.InHook hook) s := by
          rw [mem_inside, found]
          exact place
        rw [empty] at member
        exact member
      have earlier : i < hook := lt_of_le_of_ne (Nat.le_of_lt_succ below) differ
      rw [if_neg (Nat.ne_zero_of_lt earlier)]
      show i < hook - 1 + 1
      rwa [Nat.sub_add_cancel (Nat.one_le_of_lt earlier)]
  | _ => exact guests_carry le_rfl rfl rfl grows

theorem live_setNode (c : Capture) (q : ℕ) (node : DevNode) :
    {p | ((c.setNode q (some node)).nodes p).isSome} = insert q {p | (c.nodes p).isSome} := by
  ext p
  by_cases same : p = q
  · simp [Capture.setNode, same]
  · simp [Capture.setNode, same]

theorem live_setNode_none (c : Capture) (q : ℕ) :
    {p | ((c.setNode q none).nodes p).isSome} = {p | (c.nodes p).isSome} \ {q} := by
  ext p
  by_cases same : p = q
  · simp [Capture.setNode, same]
  · simp [Capture.setNode, same]

/-- The chain of one bucket changes. -/
theorem exists_entries_update (chains : ℕ → List ℕ) {bucket : ℕ}
    (inside : bucket < 2 ^ devnameHashBits) (first rest : List ℕ)
    (more : chains bucket = first ++ rest) :
    (Buckets.entries (2 ^ devnameHashBits) chains).Perm
      (first ++ Buckets.entries (2 ^ devnameHashBits) (Function.update chains bucket rest)) := by
  rcases Buckets.exists_entries chains inside with ⟨others, whole, updated⟩
  rw [more, List.append_assoc] at whole
  exact whole.trans ((updated rest).symm.append_left first)

theorem CaptureInv.client_allocates (inv : CaptureInv jhash ncpu s chains) {name : Devname}
    {rest : List Devname} {q : ℕ} (here : s.pc t = .client (.allocating name rest))
    (free : s.shared.nodes q = none) :
    CaptureInv jhash ncpu (s.move t
      (s.shared.setNode q (some ⟨⟨name, devHash jhash (namesFrom name rest)⟩, none⟩))
      (.client (.linking name rest q))) chains := by
  have memory := inv.memory
  rw [inv.task_eq here] at memory
  have off : ∀ i, q ∉ chains i := by
    intro i member
    have live := inv.isSome_of_mem member
    rw [free] at live
    exact absurd live (by simp)
  have same : SameMemory s.shared
      (s.shared.setNode q (some ⟨⟨name, devHash jhash (namesFrom name rest)⟩, none⟩)) chains :=
    sameMemory_setNode off _
  refine inv.client_move here rfl rfl (memory.keep same Iff.rfl Iff.rfl memory.hooks trivial) ?_ ?_
  · rw [live_setNode]
    apply inv.custody.alloc
    · simp [free]
    · rw [here]
      rfl
  · exact guests_carry le_rfl rfl rfl same.grows

theorem CaptureInv.client_links (inv : CaptureInv jhash ncpu s chains) {name : Devname}
    {rest : List Devname} {q table : ℕ} {heads : ℕ → Option ℕ} {node : DevNode}
    (here : s.pc t = .client (.linking name rest q))
    (tabled : s.shared.table = some (table, heads)) :
    CaptureInv jhash ncpu (s.move t
      (s.shared.setNode q (some { node with next := heads (bucketOf jhash name rest) }))
      (.client (.publishing name rest q))) chains := by
  have memory := inv.memory
  rw [inv.task_eq here] at memory
  have owned : (s.pc t).owns = some q := by
    rw [here]
    rfl
  have off : ∀ i, q ∉ chains i :=
    fun i member => inv.custody.apart t q owned (inv.mem_entries member)
  have same : SameMemory s.shared
      (s.shared.setNode q (some { node with next := heads (bucketOf jhash name rest) })) chains :=
    sameMemory_setNode off _
  refine inv.client_move here rfl rfl ?_ ?_ ?_
  · refine memory.keep same Iff.rfl Iff.rfl memory.hooks ⟨table, heads, tabled, ?_⟩
    simp [Capture.nextOf, Capture.setNode]
  · rw [live_setNode, Set.insert_eq_of_mem (inv.custody.owned t q owned)]
    have unmoved : (CaptureTask.publishing name rest q).owns = (s.pc t).owns := owned.symm
    rw [unmoved, Function.update_eq_self]
    exact inv.custody
  · exact guests_carry le_rfl rfl rfl same.grows

/-- The new node becomes the first one of its bucket. -/
theorem CaptureInv.client_publishes (inv : CaptureInv jhash ncpu s chains) {name : Devname}
    {rest : List Devname} {q table : ℕ} {heads : ℕ → Option ℕ}
    (here : s.pc t = .client (.publishing name rest q))
    (tabled : s.shared.table = some (table, heads)) :
    CaptureInv jhash ncpu (s.move t
      (s.shared.setHead table heads (bucketOf jhash name rest) (some q)) (.client (.naming rest)))
      (Function.update chains (bucketOf jhash name rest)
        (q :: chains (bucketOf jhash name rest))) := by
  have memory := inv.memory
  rw [inv.task_eq here] at memory
  have owned : (s.pc t).owns = some q := by
    rw [here]
    rfl
  have inside : bucketOf jhash name rest < 2 ^ devnameHashBits := smallJhash_lt _
  rcases memory.relies with ⟨table', heads', tabled', links⟩
  rw [tabled, Option.some.injEq, Prod.mk.injEq] at tabled'
  rcases tabled' with ⟨rfl, rfl⟩
  refine inv.client_move here rfl rfl ?_ ?_ ?_
  · refine memory.setHead s.shared.nodes tabled inside (fun _ _ _ _ => rfl) ?_ trivial
      trivial Iff.rfl memory.hooks trivial
    exact (memory.linked table heads tabled _).push links
  · refine inv.custody.publish owned ?_
    have front := exists_entries_update (Function.update chains (bucketOf jhash name rest)
      (q :: chains (bucketOf jhash name rest))) inside [q] (chains (bucketOf jhash name rest))
      (by simp)
    simpa using front
  · have grows : Grows s.shared
        (s.shared.setHead table heads (bucketOf jhash name rest) (some q)) chains
        (Function.update chains (bucketOf jhash name rest)
          (q :: chains (bucketOf jhash name rest))) := by
      intro i
      refine ⟨?_, fun _ _ => rfl⟩
      by_cases own : i = bucketOf jhash name rest
      · exact ⟨[q], by rw [own, Function.update_self]; rfl⟩
      · exact ⟨[], by rw [Function.update_of_ne own]; rfl⟩
    exact guests_carry le_rfl rfl rfl grows

/-- The first node of a bucket is freed. -/
theorem CaptureInv.client_frees (inv : CaptureInv jhash ncpu s chains) {bucket q table : ℕ}
    {heads : ℕ → Option ℕ} {node : DevNode} (here : s.pc t = .client (.freeing bucket q))
    (tabled : s.shared.table = some (table, heads)) (present : s.shared.nodes q = some node) :
    CaptureInv jhash ncpu (s.move t
      ((s.shared.setNode q none).setHead table heads bucket node.next) (.client (.clearing bucket)))
      (Function.update chains bucket (chains bucket).tail) := by
  have memory := inv.memory
  rw [inv.task_eq here] at memory
  rcases memory.relies with ⟨inside, cleared, rest, chain⟩
  have split := exists_entries_update chains inside [q] rest (by simp [chain])
  have distinct := List.nodup_cons.mp (split.nodup_iff.mp inv.custody.nodup)
  have off : ∀ i, q ∉ Function.update chains bucket rest i := by
    intro i member
    by_cases small : i < 2 ^ devnameHashBits
    · exact distinct.1 (mem_entries_iff.mpr ⟨i, small, member⟩)
    · rw [Function.update_of_ne (by omega), memory.beyond i (not_lt.mp small)] at member
      exact absurd member List.not_mem_nil
  have unlinked : ∀ i, ∀ p ∈ Function.update chains bucket rest i,
      ((s.shared.setNode q none).nodes p).map DevNode.next = s.shared.nextOf p := by
    intro i p member
    have differ : p ≠ q := fun same => off i (same ▸ member)
    simp only [Capture.setNode, Capture.nextOf, Function.update_of_ne differ]
  have linked := memory.linked table heads tabled bucket
  rw [chain] at linked
  rcases linked with ⟨-, second, links, linked⟩
  rw [Capture.nextOf, present, Option.map_some, Option.some.injEq] at links
  rw [chain, List.tail_cons]
  refine inv.client_move here rfl rfl ?_ ?_ (no_guests rfl)
  · refine memory.setHead (s.shared.setNode q none).nodes tabled inside ?_ ?_ trivial trivial
      Iff.rfl memory.hooks ?_
    · intro i other p member
      apply unlinked i
      rwa [Function.update_of_ne other]
    · rw [links]
      apply linked.congr
      intro p member
      apply unlinked bucket
      rwa [Function.update_self]
    · intro i below
      rw [Function.update_of_ne (ne_of_lt below)]
      exact cleared i below
  · have unowned : (s.pc t).owns = none := by
      rw [here]
      rfl
    have taken := inv.custody.withdraw unowned split (fun _ => by simp)
    have mine : Function.update (fun u => (s.pc u).owns) t (some q) t = some q := by
      rw [Function.update_self]
    have freed := taken.free mine
    rw [Function.update_idem] at freed
    rw [← live_setNode_none] at freed
    exact freed

theorem relies_fetchesOn {args : FetchArgs} {cpu : ℕ} {copied moved : List IpKeyInfo}
    {infonum : ℕ} (small : args.n.toNat ≤ 1024)
    (asked : copied.length + infonum = args.n.toNat) (some : moved.length ≤ infonum)
    (onward : FetchesOn args cpu (copied ++ moved) task) (jhash : List UInt8 → UInt32 → UInt32)
    (c : Capture) (chains : ℕ → List ℕ) : task.Relies jhash c chains := by
  have within : (copied ++ moved).length ≤ args.n.toNat := by
    rw [List.length_append]
    omega
  cases onward with
  | full => trivial
  | next =>
      refine ⟨small, ?_⟩
      rw [toNat_sub_ofNat within, Nat.add_sub_cancel' within]

theorem chainsAfter_looks (looks : CaptureLooks jhash s.shared task task') :
    chainsAfter jhash (.client task) (.client task') chains = chains := by
  cases looks with
  | waits => cases task <;> rfl
  | _ => rfl

/-- The client goes on with the same memory. -/
theorem CaptureInv.client_same (inv : CaptureInv jhash ncpu s chains)
    (here : s.pc t = .client task) (same : SameMemory s.shared c' chains)
    (nodes : c'.nodes = s.shared.nodes) (putting : c'.putting = s.shared.putting)
    (running : c'.running = s.shared.running) (table : task'.HasTable ↔ task.HasTable)
    (queue : task'.HasQueue ↔ task.HasQueue) (hooks : c'.hooks = task'.hooks)
    (relies : task'.Relies jhash c' chains) (owns : task'.owns = task.owns)
    (bound : task.mayRun ≤ task'.mayRun) :
    CaptureInv jhash ncpu (s.move t c' (.client task')) chains := by
  have memory := inv.memory
  rw [inv.task_eq here] at memory
  exact inv.client_keep here putting running nodes (memory.keep same table queue hooks relies) owns
    (guests_carry bound same.table same.fifo same.grows)

end Step

/-! ## The requests of the client -/

namespace CaptureTask

/-- Within `ips_open`, up to the last hook. -/
def Opening : CaptureTask → Prop
  | closed | initTable _ | initQueue _ | registering _ => True
  | _ => False

/-- Within `set_namelist`. -/
def Naming : CaptureTask → Prop
  | configuring _ | naming _ | seeking _ _ _ | allocating _ _ | linking _ _ _
  | publishing _ _ _ => True
  | _ => False

/-- Within `fetch_info`. -/
def Fetching : CaptureTask → Prop
  | fetching _ | moving _ _ _ _ | moved _ _ | copying _ _ => True
  | _ => False

/-- Within `ips_release`, after `CLOSE` is published. -/
def Closing : CaptureTask → Prop
  | unregistering _ | synchronizing _ | exitQueue | clearing _ | freeing _ _ | forgetting => True
  | _ => False

end CaptureTask

section Requests

variable {s : Captures} {chains chains' : ℕ → List ℕ} {t : ℕ} {c' : Capture}
  {task task' : CaptureTask} {pc' : CapturePc}

/-- A client that only looks keeps the chains. -/
theorem CaptureInv.client_looked (inv : CaptureInv jhash ncpu s chains)
    (here : s.pc t = .client task) (looks : CaptureLooks jhash s.shared task task') :
    CaptureInv jhash ncpu (s.move t s.shared (.client task'))
      (chainsAfter jhash (.client task) (.client task') chains) := by
  rw [chainsAfter_looks looks]
  exact inv.client_looks here looks

/-- No hook is registered before the last step of `ips_open`. -/
theorem CaptureInv.client_opening (inv : CaptureInv jhash ncpu s chains)
    (here : s.pc t = .client task) (opening : task.Opening)
    (took : CaptureTook jhash ncpu s.shared (.client task) c' pc') :
    CaptureInv jhash ncpu (s.move t c' pc') (chainsAfter jhash (.client task) pc' chains) := by
  have memory := inv.memory
  rw [inv.task_eq here] at memory
  cases took with
  | stays => exact inv.client_looked here (.waits task)
  | clientLooks looks => exact inv.client_looked here looks
  | opens vmalloc free =>
      exact inv.client_same here (sameMemory_of_eq rfl rfl rfl rfl rfl) rfl rfl rfl Iff.rfl Iff.rfl
        memory.hooks memory.relies rfl le_rfl
  | noTable vmalloc =>
      exact inv.client_keep here rfl rfl rfl (memory.forgets id id rfl s.shared.whiteBlack) rfl
        (no_guests rfl)
  | inits vmalloc table free =>
      exact inv.client_keep here rfl rfl rfl (memory.inits table) rfl (no_guests rfl)
  | noPercpu vmalloc =>
      exact inv.client_keep here rfl rfl rfl memory.noQueue rfl (no_guests rfl)
  | undoes vmalloc q free =>
      refine inv.client_keep here rfl rfl rfl ?_ rfl (no_guests rfl)
      refine memory.freeQueue ?_ Iff.rfl id memory.hooks
        fun i below => absurd below (Nat.not_lt_zero i)
      intro other queue
      have present := (memory.fifos other).mpr queue
      rw [memory.fifos_eq_none id other] at present
      exact absurd present (by simp)
  | creates vmalloc q free =>
      exact inv.client_keep here rfl rfl rfl (memory.creates q) rfl (no_guests rfl)
  | registers hook more =>
      exact inv.client_same here (sameMemory_of_eq rfl rfl rfl rfl rfl) rfl rfl rfl Iff.rfl Iff.rfl
        rfl more rfl (Nat.le_succ hook)
  | _ => exact absurd opening id

/-- A name is published at the head of its bucket, behind which the packets walk on. -/
theorem CaptureInv.client_naming (inv : CaptureInv jhash ncpu s chains)
    (here : s.pc t = .client task) (naming : task.Naming)
    (took : CaptureTook jhash ncpu s.shared (.client task) c' pc') :
    CaptureInv jhash ncpu (s.move t c' pc') (chainsAfter jhash (.client task) pc' chains) := by
  have memory := inv.memory
  rw [inv.task_eq here] at memory
  cases took with
  | stays => exact inv.client_looked here (.waits task)
  | clientLooks looks => exact inv.client_looked here looks
  | configures args unset kind =>
      exact inv.client_same here (sameMemory_of_eq rfl rfl rfl rfl rfl) rfl rfl rfl Iff.rfl Iff.rfl
        memory.hooks trivial rfl le_rfl
  | allocates name rest q free => exact inv.client_allocates here free
  | links name rest q table heads node tabled present => exact inv.client_links here tabled
  | publishes name rest q table heads tabled => exact inv.client_publishes here tabled
  | _ => exact absurd naming id

/-- A fetch takes records out of the fifos and leaves the memory as it is. -/
theorem CaptureInv.client_fetching (inv : CaptureInv jhash ncpu s chains)
    (here : s.pc t = .client task) (fetching : task.Fetching)
    (took : CaptureTook jhash ncpu s.shared (.client task) c' pc') :
    CaptureInv jhash ncpu (s.move t c' pc') (chainsAfter jhash (.client task) pc' chains) := by
  have memory := inv.memory
  rw [inv.task_eq here] at memory
  have relies := memory.relies
  cases took with
  | stays => exact inv.client_looked here (.waits task)
  | clientLooks looks => exact inv.client_looked here looks
  | moves args cpu copied infonum q cpus f queue present onward =>
      have same : SameMemory s.shared
          (s.shared.setFifo q cpu cpus { f with fifo := (f.fifo.out infonum).2 }) chains :=
        sameMemory_setFifo queue cpu _
      have within : (f.fifo.out infonum).1.length ≤ infonum := by simp [Kfifo.out]
      have next := relies_fetchesOn relies.1 relies.2 within onward jhash
        (s.shared.setFifo q cpu cpus { f with fifo := (f.fifo.out infonum).2 }) chains
      cases onward with
      | full =>
          exact inv.client_same here same rfl rfl rfl Iff.rfl Iff.rfl memory.hooks next rfl le_rfl
      | next =>
          exact inv.client_same here same rfl rfl rfl Iff.rfl Iff.rfl memory.hooks next rfl le_rfl
  | countsGets args copied =>
      exact inv.client_same here (sameMemory_of_eq rfl rfl rfl rfl rfl) rfl rfl rfl Iff.rfl Iff.rfl
        memory.hooks trivial rfl le_rfl
  | _ => exact absurd fetching id

/-- Nothing is freed before the last hook is gone, and with it the packets. -/
theorem CaptureInv.client_closing (inv : CaptureInv jhash ncpu s chains)
    (here : s.pc t = .client task) (closing : task.Closing)
    (took : CaptureTook jhash ncpu s.shared (.client task) c' pc') :
    CaptureInv jhash ncpu (s.move t c' pc') (chainsAfter jhash (.client task) pc' chains) := by
  have memory := inv.memory
  rw [inv.task_eq here] at memory
  cases took with
  | stays => exact inv.client_looked here (.waits task)
  | clientLooks looks => exact inv.client_looked here looks
  | unregisters hook =>
      exact inv.client_same here (sameMemory_of_eq rfl rfl rfl rfl rfl) rfl rfl rfl Iff.rfl Iff.rfl
        rfl memory.relies rfl le_rfl
  | exits q queue =>
      refine inv.client_keep here rfl rfl rfl ?_ rfl (no_guests rfl)
      refine memory.freeQueue ?_ Iff.rfl id memory.hooks
        fun i below => absurd below (Nat.not_lt_zero i)
      intro other current
      rw [queue, Option.some.injEq] at current
      exact current.symm
  | frees bucket table heads q node tabled present => exact inv.client_frees here tabled present
  | freesTable bucket table heads tabled most =>
      exact inv.client_keep here rfl rfl rfl (memory.freesTable tabled most) rfl (no_guests rfl)
  | forgets =>
      exact inv.client_keep here rfl rfl rfl (memory.forgets id id rfl ipsNone) rfl (no_guests rfl)
  | _ => exact absurd closing id

/-- Whatever the client does next, the memory serves it. -/
theorem CaptureInv.client (inv : CaptureInv jhash ncpu s chains) (here : s.pc t = .client task)
    (took : CaptureTook jhash ncpu s.shared (.client task) c' pc') :
    CaptureInv jhash ncpu (s.move t c' pc') (chainsAfter jhash (.client task) pc' chains) := by
  have memory := inv.memory
  rw [inv.task_eq here] at memory
  cases task with
  | closed | initTable | initQueue | registering => exact inv.client_opening here trivial took
  | configuring | naming | seeking | allocating | linking | publishing =>
      exact inv.client_naming here trivial took
  | fetching | moving | moved | copying => exact inv.client_fetching here trivial took
  | unregistering | synchronizing | exitQueue | clearing | freeing | forgetting =>
      exact inv.client_closing here trivial took
  | ready =>
      cases took with
      | stays => exact inv.client_looked here (.waits .ready)
      | clientLooks looks => exact inv.client_looked here looks
      | enters task new request =>
          rcases request with ⟨args, rfl, -, -⟩ | ⟨args, rfl, -, -⟩
          · exact inv.client_same here (sameMemory_of_eq rfl rfl rfl rfl rfl) rfl rfl rfl Iff.rfl
              Iff.rfl memory.hooks trivial rfl le_rfl
          · exact inv.client_same here (sameMemory_of_eq rfl rfl rfl rfl rfl) rfl rfl rfl Iff.rfl
              Iff.rfl memory.hooks trivial rfl le_rfl
      | closes =>
          have five : (5 : ℕ) < 6 := by decide
          exact inv.client_same here (sameMemory_of_eq rfl rfl rfl rfl rfl) rfl rfl rfl Iff.rfl
            Iff.rfl memory.hooks five rfl le_rfl
  | restoring =>
      cases took with
      | stays => exact inv.client_looked here (.waits _)
      | clientLooks looks => exact inv.client_looked here looks
      | restores new =>
          exact inv.client_same here (sameMemory_of_eq rfl rfl rfl rfl rfl) rfl rfl rfl Iff.rfl
            Iff.rfl memory.hooks trivial rfl le_rfl

end Requests

end Linguafranca.Ipshark
