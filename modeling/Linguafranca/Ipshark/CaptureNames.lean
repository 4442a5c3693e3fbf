import Linguafranca.Ipshark.CaptureDecisions

/-!
# Names that are added while hooks run

`set_namelist` adds one name after the other, each in several steps, while hooks walk the
buckets. What it leaves in memory is what `devset_add` on lists makes of the device set that
was there before, with the outcomes that the allocations had.
-/

namespace Linguafranca.Ipshark

open Run Interleaving Chain

/-- A list of names that is being added: the device set before, and for each name that is
done whether its entry could be allocated, if it needed one. -/
structure Adding where
  args : SetArgs
  start : Devset
  outcomes : List Bool

namespace Adding

/-- Whether the allocation for a name succeeded; it did if it is yet to come. -/
def kmalloc (d : Adding) (ii : ℕ) : Bool :=
  (d.outcomes[ii]?).getD true

/-- The next allocation has this outcome. -/
def next (d : Adding) (outcome : Bool) : Adding :=
  { d with outcomes := d.outcomes ++ [outcome] }

end Adding

/-- The chains of the table, the list that is being added, and the lists that were. -/
structure NamesLedger where
  chains : ℕ → List ℕ
  adding : Option Adding
  /-- The lists that were added, with the device set after. -/
  added : List (Adding × Devset)

section

variable (jhash : List UInt8 → UInt32 → UInt32) (ncpu : ℕ)

/-- What a step of the client does to the list that is being added. -/
def NamesLedger.goOn (l : NamesLedger) (now : Devset) (pc pc' : CapturePc) : NamesLedger :=
  match pc, pc' with
  | .client (.configuring args), .client (.naming _) => { l with adding := some ⟨args, now, []⟩ }
  | .client (.seeking _ _ _), .client (.naming _)
  | .client (.publishing _ _ _), .client (.naming _) =>
      { l with adding := l.adding.map fun d => d.next true }
  | .client (.allocating _ _), .client (.naming _) =>
      { l with adding := l.adding.map fun d => d.next false }
  | .client (.naming []), .client .ready =>
      { l with
        adding := none
        added := l.added ++ (l.adding.map fun d => (d, now)).toList }
  | _, _ => l

/-- The ledger after a step. -/
def namesStep (s : Captures) (event : ℕ × CaptureAct) (l : NamesLedger) : NamesLedger :=
  { l.goOn (s.shared.view l.chains) (s.pc event.1)
      ((captureStep jhash ncpu s event).pc event.1) with
    chains := chainsStep jhash ncpu s event l.chains }

/-- These names are still to be added. -/
structure Adding.Left (d : Adding) (names : List Devname) (now : Devset) : Prop where
  unset : d.start.whiteBlack = ipsNone
  kind : d.args.whiteBlack ≠ ipsNone
  set : now.whiteBlack = d.args.whiteBlack
  tables : ∃ first table, d.start.devHashtable = some first ∧ now.devHashtable = some table ∧
    ∀ kmalloc : ℕ → Bool, (∀ ii outcome, d.outcomes[ii]? = some outcome → kmalloc ii = outcome) →
      addNames jhash kmalloc first 0 ((List.range d.args.devnum.toNat).map d.args.names) =
        addNames jhash kmalloc table d.outcomes.length names

/-- The name is in no entry of its bucket. -/
def Unknown (c : Capture) (chains : ℕ → List ℕ) (name : Devname) (rest : List Devname) : Prop :=
  getEntryInHlist (namesFrom name rest) (devHash jhash (namesFrom name rest))
    ((chains (bucketOf jhash name rest)).filterMap c.entryOf) = none

/-- How far the client is with the list. -/
def CaptureTask.Adds (c : Capture) (chains : ℕ → List ℕ) (d : Adding) : CaptureTask → Prop
  | naming names => d.Left jhash names (c.view chains)
  | seeking name rest pos => d.Left jhash (name :: rest) (c.view chains) ∧
      ∃ visited, At c.nextOf (chains (bucketOf jhash name rest)) visited pos ∧
        ∀ q ∈ visited, ∀ e, c.entryOf q = some e →
          e.isFor (namesFrom name rest) (devHash jhash (namesFrom name rest)) = false
  | allocating name rest =>
      d.Left jhash (name :: rest) (c.view chains) ∧ Unknown jhash c chains name rest
  | linking name rest newnode | publishing name rest newnode =>
      d.Left jhash (name :: rest) (c.view chains) ∧ Unknown jhash c chains name rest ∧
        c.entryOf newnode = some ⟨name, devHash jhash (namesFrom name rest)⟩
  | _ => True

/-- The client is adding names. -/
def CaptureTask.IsAdding : CaptureTask → Prop
  | naming _ | seeking _ _ _ | allocating _ _ | linking _ _ _ | publishing _ _ _ => True
  | _ => False

/-- What was added so far is what `devset_add` adds, and so is every list that was added. -/
structure NamesInv (s : Captures) (l : NamesLedger) : Prop where
  inv : CaptureInv jhash ncpu s l.chains
  adds : (s.pc 0).task.IsAdding → ∃ d, l.adding = some d ∧
    (s.pc 0).task.Adds jhash s.shared l.chains d
  done : ∀ one ∈ l.added,
    devsetAdd jhash one.1.kmalloc (some one.1.args.list) one.1.start = (0, one.2)

end

section Names

variable {jhash : List UInt8 → UInt32 → UInt32} {d : Adding} {now now' : Devset}
  {names rest : List Devname} {name : Devname} {c c' : Capture} {chains chains' : ℕ → List ℕ}
  {task : CaptureTask} {outcome : Bool}

/-- One more name is done. -/
theorem Adding.Left.next (left : d.Left jhash (name :: rest) now)
    (set : now'.whiteBlack = now.whiteBlack)
    (added : ∀ table, now.devHashtable = some table → now'.devHashtable =
      some (addName jhash outcome (namesFrom name rest) name table)) :
    (d.next outcome).Left jhash rest now' := by
  rcases left.tables with ⟨first, table, before, here, same⟩
  refine ⟨left.unset, left.kind, set.trans left.set, first, _, before, added table here, ?_⟩
  intro kmalloc agrees
  have known : kmalloc d.outcomes.length = outcome := by
    apply agrees
    exact List.getElem?_concat_length
  have earlier : ∀ ii outcome, d.outcomes[ii]? = some outcome → kmalloc ii = outcome := by
    intro ii one present
    apply agrees
    rw [Adding.next, List.getElem?_append_left (List.getElem?_eq_some_iff.mp present).1]
    exact present
  calc
    addNames jhash kmalloc first 0 ((List.range d.args.devnum.toNat).map d.args.names) =
        addNames jhash kmalloc table d.outcomes.length (name :: rest) := same kmalloc earlier
    _ = addNames jhash kmalloc
          (addName jhash (kmalloc d.outcomes.length) (namesFrom name rest) name table)
          (d.outcomes.length + 1) rest := addNames_cons table d.outcomes.length name rest
    _ = addNames jhash kmalloc (addName jhash outcome (namesFrom name rest) name table)
          (d.next outcome).outcomes.length rest := by
        rw [known, Adding.next, List.length_append, List.length_singleton]

/-- Nothing is left to be added. -/
theorem Adding.Left.devsetAdd_eq (left : d.Left jhash [] now) :
    devsetAdd jhash d.kmalloc (some d.args.list) d.start = (0, now) := by
  rcases left.tables with ⟨first, table, before, here, same⟩
  have agrees : ∀ ii outcome, d.outcomes[ii]? = some outcome → d.kmalloc ii = outcome := by
    intro ii outcome present
    rw [Adding.kmalloc, present, Option.getD_some]
  have result := same d.kmalloc agrees
  rw [addNames] at result
  simp only [devsetAdd, before, left.unset, SetArgs.list, ne_eq, not_true_eq_false, if_false,
    left.kind, result]
  rw [← left.set, ← here]

theorem view_congr (nodes : ∀ i, ∀ q ∈ chains i, c'.nodes q = c.nodes q)
    (table : c'.devHashtable = c.devHashtable) (kind : c'.whiteBlack = c.whiteBlack) :
    c'.view chains = c.view chains := by
  have buckets : ∀ i, (chains i).filterMap c'.entryOf = (chains i).filterMap c.entryOf :=
    fun i => List.filterMap_congr fun q member =>
      congrArg (Option.map DevNode.entry) (nodes i q member)
  simp only [Capture.view, table, kind, buckets]

theorem unknown_congr (unknown : Unknown jhash c chains name rest)
    (nodes : ∀ i, ∀ q ∈ chains i, c'.nodes q = c.nodes q) :
    Unknown jhash c' chains name rest := by
  have bucket : (chains (bucketOf jhash name rest)).filterMap c'.entryOf =
      (chains (bucketOf jhash name rest)).filterMap c.entryOf :=
    List.filterMap_congr fun q member =>
      congrArg (Option.map DevNode.entry) (nodes _ q member)
  rw [Unknown, bucket]
  exact unknown

/-- What is not of the device set changes. -/
theorem CaptureTask.Adds.frame (adds : task.Adds jhash c chains d) (nodes : c'.nodes = c.nodes)
    (table : c'.devHashtable = c.devHashtable) (kind : c'.whiteBlack = c.whiteBlack) :
    task.Adds jhash c' chains d := by
  have same : ∀ i, ∀ q ∈ chains i, c'.nodes q = c.nodes q := fun i q _ => by rw [nodes]
  have view := view_congr same table kind
  have entries : c'.entryOf = c.entryOf := by
    funext q
    rw [Capture.entryOf, Capture.entryOf, nodes]
  have nexts : c'.nextOf = c.nextOf := by
    funext q
    rw [Capture.nextOf, Capture.nextOf, nodes]
  cases task with
  | naming names =>
      rw [CaptureTask.Adds, view]
      exact adds
  | seeking name rest pos =>
      rw [CaptureTask.Adds, view, nexts, entries]
      exact adds
  | allocating name rest => exact ⟨by rw [view]; exact adds.1, unknown_congr adds.2 same⟩
  | linking name rest newnode | publishing name rest newnode =>
      refine ⟨?_, unknown_congr adds.2.1 same, ?_⟩
      · rw [view]
        exact adds.1
      · rw [entries]
        exact adds.2.2
  | _ => trivial

/-- The name is in an entry, or it cannot get one. -/
theorem addName_of_found {table : ℕ → List DevEntry}
    (found : outcome = false ∨ (getEntryInHlist (namesFrom name rest)
      (devHash jhash (namesFrom name rest)) (table (bucketOf jhash name rest))).isSome) :
    addName jhash outcome (namesFrom name rest) name table = table := by
  simp only [addName]
  split
  · rfl
  · next missing =>
      rw [found.resolve_right missing]
      rfl

theorem addName_of_unknown {table : ℕ → List DevEntry}
    (unknown : getEntryInHlist (namesFrom name rest) (devHash jhash (namesFrom name rest))
      (table (bucketOf jhash name rest)) = none) :
    addName jhash true (namesFrom name rest) name table =
      Function.update table (bucketOf jhash name rest)
        (⟨name, devHash jhash (namesFrom name rest)⟩ :: table (bucketOf jhash name rest)) := by
  rw [bucketOf] at unknown ⊢
  simp [addName, unknown]

theorem Adding.Left.skip (left : d.Left jhash (name :: rest) (c.view chains))
    (found : outcome = false ∨ (getEntryInHlist (namesFrom name rest)
      (devHash jhash (namesFrom name rest))
      ((chains (bucketOf jhash name rest)).filterMap c.entryOf)).isSome) :
    (d.next outcome).Left jhash rest (c.view chains) := by
  apply left.next rfl
  intro table here
  rcases Option.map_eq_some_iff.mp here with ⟨t, -, rfl⟩
  rw [addName_of_found found]
  exact here

end Names

/-! ## A step -/

section Step

variable {jhash : List UInt8 → UInt32 → UInt32} {ncpu : ℕ} {s : Captures} {l : NamesLedger}
  {t : ℕ} {task task' : CaptureTask} {c c' : Capture} {pc' : CapturePc} {d : Adding}
  {chains : ℕ → List ℕ}

/-- A look of the client goes on with the list. -/
theorem CaptureLooks.adds (looks : CaptureLooks jhash c task task')
    (adds : task.Adds jhash c chains d) (adding : l.adding = some d)
    (linked : ∀ t heads, c.table = some (t, heads) → ∀ i, Linked c.nextOf (heads i) (chains i))
    (isAdding : task'.IsAdding) :
    ∃ d', (l.goOn (c.view chains) (.client task) (.client task')).adding = some d' ∧
      task'.Adds jhash c chains d' := by
  cases looks with
  | waits =>
      refine ⟨d, ?_, adds⟩
      cases task with
      | naming names => cases names <;> exact adding
      | _ => exact adding
  | heads name rest t heads here =>
      refine ⟨d, adding, adds, [], At.start (linked t heads here _), ?_⟩
      exact fun q none => absurd none List.not_mem_nil
  | misses name rest =>
      rcases adds with ⟨left, visited, walks, missed⟩
      refine ⟨d, adding, left, ?_⟩
      rw [Unknown, ← Option.not_isSome_iff_eq_none, getEntryInHlist_isSome_iff, walks.finish]
      rintro ⟨e, listed, found⟩
      rcases List.mem_filterMap.mp listed with ⟨q, passed, here⟩
      rw [missed q passed e here] at found
      exact absurd found (by simp)
  | finds name rest pos node here found =>
      rcases adds with ⟨left, visited, walks, missed⟩
      refine ⟨d.next true, by simp [NamesLedger.goOn, adding], left.skip (Or.inr ?_)⟩
      rw [getEntryInHlist_isSome_iff]
      refine ⟨node.entry, List.mem_filterMap.mpr ⟨pos, walks.mem, ?_⟩, found⟩
      rw [Capture.entryOf, here]
      rfl
  | walks name rest pos node here other =>
      rcases adds with ⟨left, visited, walks, missed⟩
      refine ⟨d, adding, left, visited ++ [pos], walks.forward ?_, ?_⟩
      · rw [Capture.nextOf, here]
        rfl
      · intro q passed e entry
        rcases List.mem_append.mp passed with old | new
        · exact missed q old e entry
        · rw [List.mem_singleton.mp new, Capture.entryOf, here, Option.map_some,
            Option.some.injEq] at entry
          rw [← entry]
          exact other
  | noMemory name rest =>
      exact ⟨d.next false, by simp [NamesLedger.goOn, adding], adds.1.skip (Or.inl rfl)⟩
  | synchronizes hook none =>
      by_cases last : hook = 0
      · rw [if_pos last] at isAdding
        exact absurd isAdding id
      · rw [if_neg last] at isAdding
        exact absurd isAdding id
  | _ => exact absurd isAdding id

theorem CaptureLooks.isAdding (looks : CaptureLooks jhash c task task')
    (isAdding : task'.IsAdding) : task.IsAdding := by
  cases looks with
  | waits => exact isAdding
  | synchronizes hook none =>
      by_cases last : hook = 0
      · rw [if_pos last] at isAdding
        exact absurd isAdding id
      · rw [if_neg last] at isAdding
        exact absurd isAdding id
  | heads | misses | finds | walks | noMemory => trivial
  | _ => exact absurd isAdding id

theorem NamesInv.adding (inv : NamesInv jhash ncpu s l) (here : s.pc t = .client task)
    (isAdding : task.IsAdding) :
    ∃ d, l.adding = some d ∧ task.Adds jhash s.shared l.chains d := by
  have adds := inv.adds
  rw [inv.inv.task_eq here] at adds
  exact adds isAdding

/-- The client goes on with the list, or starts one. -/
theorem NamesInv.client_adds (inv : NamesInv jhash ncpu s l) (here : s.pc t = .client task)
    (took : CaptureTook jhash ncpu s.shared (.client task) c' pc') (isAdding : pc'.task.IsAdding) :
    ∃ d, (l.goOn (s.shared.view l.chains) (.client task) pc').adding = some d ∧
      pc'.task.Adds jhash c' (chainsAfter jhash (.client task) pc' l.chains) d := by
  have memory := inv.inv.memory
  rw [inv.inv.task_eq here] at memory
  have looks : ∀ task', task'.IsAdding → CaptureLooks jhash s.shared task task' →
      ∃ d, (l.goOn (s.shared.view l.chains) (.client task) (.client task')).adding = some d ∧
        task'.Adds jhash s.shared
          (chainsAfter jhash (.client task) (.client task') l.chains) d := by
    intro task' isAdding looked
    rcases inv.adding here (looked.isAdding isAdding) with ⟨d, adding, adds⟩
    rw [chainsAfter_looks looked]
    exact looked.adds adds adding memory.linked isAdding
  cases took with
  | stays => exact looks task isAdding (.waits task)
  | clientLooks looked => exact looks _ isAdding looked
  | configures args unset kind =>
      refine ⟨⟨args, s.shared.view l.chains, []⟩, rfl, unset, kind, rfl, ?_⟩
      rcases Option.isSome_iff_exists.mp (memory.table trivial) with ⟨table, pointer⟩
      have here : (s.shared.view l.chains).devHashtable =
          some fun bucket => (l.chains bucket).filterMap s.shared.entryOf := by
        rw [Capture.view, pointer]
        rfl
      exact ⟨_, _, here, here, fun kmalloc _ => rfl⟩
  | allocates name rest q free =>
      rcases inv.adding here trivial with ⟨d, adding, left, unknown⟩
      have off : ∀ i, q ∉ l.chains i := by
        intro i member
        have live := inv.inv.isSome_of_mem member
        rw [free] at live
        exact absurd live (by simp)
      have same := (sameMemory_setNode (c := s.shared) off
        (some ⟨⟨name, devHash jhash (namesFrom name rest)⟩, none⟩)).nodes
      refine ⟨d, adding, ?_, unknown_congr unknown same, ?_⟩
      · rw [show chainsAfter jhash _ _ l.chains = l.chains from rfl, view_congr same rfl rfl]
        exact left
      · simp only [Capture.entryOf, Capture.setNode, Function.update_self]
        rfl
  | links name rest q table heads node tabled present =>
      rcases inv.adding here trivial with ⟨d, adding, left, unknown, entry⟩
      have off : ∀ i, q ∉ l.chains i := by
        intro i member
        exact inv.inv.custody.apart t q (by rw [here]; rfl) (inv.inv.mem_entries member)
      have same := (sameMemory_setNode (c := s.shared) off
        (some { node with next := heads (bucketOf jhash name rest) })).nodes
      refine ⟨d, adding, ?_, unknown_congr unknown same, ?_⟩
      · rw [show chainsAfter jhash _ _ l.chains = l.chains from rfl, view_congr same rfl rfl]
        exact left
      · rw [Capture.entryOf, present] at entry
        simp only [Capture.entryOf, Capture.setNode, Function.update_self]
        exact entry
  | publishes name rest q table heads tabled =>
      rcases inv.adding here trivial with ⟨d, adding, left, unknown, entry⟩
      refine ⟨d.next true, by simp [NamesLedger.goOn, adding], ?_⟩
      refine Adding.Left.next left rfl ?_
      intro buckets found
      rcases Option.map_eq_some_iff.mp found with ⟨pointer, current, rfl⟩
      have added : addName jhash true (namesFrom name rest) name
          (fun bucket => (l.chains bucket).filterMap s.shared.entryOf) = _ :=
        addName_of_unknown unknown
      rw [added]
      simp only [Capture.view, Capture.setHead, current, Option.map_some, Option.some.injEq,
        chainsAfter]
      funext i
      have front : (q :: l.chains (bucketOf jhash name rest)).filterMap s.shared.entryOf =
          ⟨name, devHash jhash (namesFrom name rest)⟩ ::
            (l.chains (bucketOf jhash name rest)).filterMap s.shared.entryOf :=
        List.filterMap_cons_some entry
      by_cases own : i = bucketOf jhash name rest
      · rw [own, Function.update_self, Function.update_self, ← front]
        rfl
      · rw [Function.update_of_ne own, Function.update_of_ne own]
        rfl
  | moves args cpu copied infonum q cpus f queue present onward =>
      cases onward <;> exact absurd isAdding id
  | enters task new request =>
      rcases request with ⟨args, rfl, -, -⟩ | ⟨args, rfl, -, -⟩ <;> exact absurd isAdding id
  | _ => exact absurd isAdding id

/-- Lists that were added stay. -/
theorem NamesInv.client_done (inv : NamesInv jhash ncpu s l) (here : s.pc t = .client task)
    (took : CaptureTook jhash ncpu s.shared (.client task) c' pc') :
    ∀ one ∈ (l.goOn (s.shared.view l.chains) (.client task) pc').added,
      devsetAdd jhash one.1.kmalloc (some one.1.args.list) one.1.start = (0, one.2) := by
  by_cases ends : task = .naming [] ∧ pc' = .client .ready
  · rcases ends with ⟨rfl, rfl⟩
    rcases inv.adding here trivial with ⟨d, adding, left⟩
    intro one member
    rw [NamesLedger.goOn, adding] at member
    rcases List.mem_append.mp member with old | last
    · exact inv.done one old
    · rw [Option.map_some, Option.toList_some, List.mem_singleton] at last
      rw [last]
      exact left.devsetAdd_eq
  · have same : (l.goOn (s.shared.view l.chains) (.client task) pc').added = l.added := by
      unfold NamesLedger.goOn
      split
      · rfl
      · rfl
      · rfl
      · rfl
      · next first second => exact absurd ⟨by cases second; rfl, rfl⟩ ends
      · rfl
    rw [same]
    exact inv.done

theorem CaptureTook.same_set {pc : CapturePc} (took : CaptureTook jhash ncpu c pc c' pc')
    (other : ¬pc.IsClient) :
    c'.nodes = c.nodes ∧ c'.devHashtable = c.devHashtable ∧ c'.whiteBlack = c.whiteBlack := by
  cases took with
  | counts p put fifo pkts => cases put <;> exact ⟨rfl, rfl, rfl⟩
  | stays | arrives | looks | disables | puts | alarms | leaves | returns => exact ⟨rfl, rfl, rfl⟩
  | _ => exact absurd trivial other

theorem goOn_of_packet (l : NamesLedger) (now : Devset) {pc : CapturePc}
    (other : ¬pc.IsClient) : l.goOn now pc pc' = l := by
  cases pc with
  | client task => exact absurd trivial other
  | _ => rfl

theorem NamesInv.step (inv : NamesInv jhash ncpu s l) (event : ℕ × CaptureAct) :
    NamesInv jhash ncpu (captureStep jhash ncpu s event) (namesStep jhash ncpu s event l) := by
  have took : CaptureTook jhash ncpu s.shared (s.pc event.1)
      (captureStep jhash ncpu s event).shared ((captureStep jhash ncpu s event).pc event.1) := by
    have moved : (captureStep jhash ncpu s event).pc event.1 =
        (captureAct jhash ncpu s.shared (s.pc event.1) event.2).2 := pc_move_self
    rw [moved]
    exact took_captureAct (s.pc event.1) event.2 (inv.inv.usable event.1)
  by_cases client : (s.pc event.1).IsClient
  · have zero : event.1 = 0 := (inv.inv.one event.1).mp client
    cases here : s.pc event.1 with
    | client task =>
        rw [here] at took
        refine ⟨inv.inv.step event, ?_, ?_⟩
        · intro isAdding
          rw [← zero] at isAdding ⊢
          simp only [namesStep, chainsStep, here]
          exact inv.client_adds here took isAdding
        · simp only [namesStep, here]
          exact inv.client_done here took
    | _ =>
        rw [here] at client
        exact absurd client id
  · have notZero : (0 : ℕ) ≠ event.1 := fun zero => client ((inv.inv.one event.1).mpr zero.symm)
    have rest : (captureStep jhash ncpu s event).pc 0 = s.pc 0 := pc_move_of_ne notZero
    have chains : chainsStep jhash ncpu s event l.chains = l.chains := by
      rw [chainsStep]
      cases here : s.pc event.1 with
      | client task => exact absurd (show (s.pc event.1).IsClient by rw [here]; trivial) client
      | _ => rfl
    rcases took.same_set client with ⟨nodes, table, kind⟩
    refine ⟨inv.inv.step event, ?_, ?_⟩
    · intro isAdding
      rw [rest] at isAdding ⊢
      rcases inv.adds isAdding with ⟨d, adding, adds⟩
      refine ⟨d, ?_, ?_⟩
      · simp only [namesStep, goOn_of_packet l _ client]
        exact adding
      · simp only [namesStep, chains]
        exact adds.frame nodes table kind
    · simp only [namesStep, goOn_of_packet l _ client]
      exact inv.done

end Step

/-! ## Runs -/

section Runs

variable (jhash : List UInt8 → UInt32 → UInt32) (ncpu : ℕ)

/-- No list was added when the module is loaded. -/
def emptyNames : NamesLedger where
  chains := fun _ => []
  adding := none
  added := []

theorem namesInv_run (events : List (ℕ × CaptureAct)) :
    NamesInv jhash ncpu (run (captureStep jhash ncpu) loadedCapture events)
      (run (observe (captureStep jhash ncpu) (namesStep jhash ncpu))
        (loadedCapture, emptyNames) events).2 := by
  have kept : ∀ (both : Captures × NamesLedger) event, NamesInv jhash ncpu both.1 both.2 →
      NamesInv jhash ncpu (observe (captureStep jhash ncpu) (namesStep jhash ncpu) both event).1
        (observe (captureStep jhash ncpu) (namesStep jhash ncpu) both event).2 :=
    fun both event inv => inv.step event
  have first : NamesInv jhash ncpu (loadedCapture, emptyNames).1 (loadedCapture, emptyNames).2 :=
    ⟨captureInv_loaded jhash ncpu, fun isAdding => absurd isAdding id,
      fun one member => absurd member List.not_mem_nil⟩
  have both := invariant_of_step kept events first
  rw [run_observe_fst] at both
  exact both

/-- However the hooks interleave with `set_namelist`: where it goes through, the device set in
memory before and after it are those of `devset_add` on lists, with the outcomes that the
allocations had. -/
theorem set_namelist_refines (events : List (ℕ × CaptureAct)) :
    (∀ one ∈ (run (observe (captureStep jhash ncpu) (namesStep jhash ncpu))
        (loadedCapture, emptyNames) events).2.added,
      devsetAdd jhash one.1.kmalloc (some one.1.args.list) one.1.start = (0, one.2)) ∧
    ∀ t heads, (run (captureStep jhash ncpu) loadedCapture events).shared.table = some (t, heads) →
      ∀ i, Linked (run (captureStep jhash ncpu) loadedCapture events).shared.nextOf (heads i)
        ((run (observe (captureStep jhash ncpu) (namesStep jhash ncpu))
          (loadedCapture, emptyNames) events).2.chains i) := by
  have inv := namesInv_run jhash ncpu events
  exact ⟨inv.done, inv.inv.memory.linked⟩

end Runs

end Linguafranca.Ipshark
