import Linguafranca.Ipshark.CapturePackets
import Linguafranca.Ipshark.Description
import Linguafranca.Support.Moments

/-!
# A hook decides as if at one moment

A hook reads `white_black` and the nodes of a bucket one after the other, and looks up two
devices, while `set_namelist` may be adding names. Yet what it decides about a packet is
what it would have decided at one moment since the packet arrived. The device sets there
were meanwhile are kept beside the run for each thread; a name that was added stays until
no packet is in a hook, so that of two moments one serves for both lookups.
-/

namespace Linguafranca.Ipshark

open Run Interleaving Chain Moments

/-! ## The device set that the memory stands for -/

/-- The entry at a pointer. -/
def Capture.entryOf (c : Capture) (p : ℕ) : Option DevEntry :=
  (c.nodes p).map DevNode.entry

/-- The device set with the entries of the chains. -/
def Capture.view (c : Capture) (chains : ℕ → List ℕ) : Devset where
  devHashtable := c.devHashtable.map fun _ bucket => (chains bucket).filterMap c.entryOf
  whiteBlack := c.whiteBlack

/-- The second set is a later one of the same session. -/
def Devset.Precedes (first second : Devset) : Prop :=
  first.whiteBlack = ipsNone ∨ second.whiteBlack = first.whiteBlack ∧
    ∀ table, first.devHashtable = some table → ∃ table', second.devHashtable = some table' ∧
      ∀ bucket, table bucket <:+ table' bucket

instance : Std.Refl Devset.Precedes where
  refl _ := Or.inr ⟨rfl, fun table here => ⟨table, here, fun _ => List.suffix_rfl⟩⟩

instance : IsTrans Devset Devset.Precedes where
  trans first second third before after := by
    rcases before with unset | ⟨kind, tables⟩
    · exact Or.inl unset
    · rcases after with unset | ⟨kind', tables'⟩
      · rw [kind] at unset
        exact Or.inl unset
      · refine Or.inr ⟨kind'.trans kind, ?_⟩
        intro table here
        rcases tables table here with ⟨table', here', suffix⟩
        rcases tables' table' here' with ⟨table'', here'', suffix'⟩
        exact ⟨table'', here'', fun bucket => (suffix bucket).trans (suffix' bucket)⟩

section

variable (jhash : List UInt8 → UInt32 → UInt32)

/-- Whether the bucket of a device has its name. -/
def Devset.finds (set : Devset) (dev : NetDevice) : Option Bool :=
  set.devHashtable.map fun table =>
    (getEntryInHlist dev.name.toList (devHash jhash dev.name.toList)
      (table (smallJhash (devHash jhash dev.name.toList)))).isSome

/-- All these devices would have been ignored at one moment. -/
def AllIgnored (past : List Devset) (devs : List NetDevice) : Prop :=
  ∃ set ∈ past, ∀ dev ∈ devs, devsetIgnore jhash dev.name.toList set = some true

end

section Sets

variable {jhash : List UInt8 → UInt32 → UInt32} {set set' : Devset} {dev : NetDevice}
  {past : List Devset} {now : Devset} {devs : List NetDevice} {found : Bool}

theorem getEntryInHlist_isSome_iff (name : List UInt8) (hash : UInt32) (list : List DevEntry) :
    (getEntryInHlist name hash list).isSome = true ↔ ∃ e ∈ list, e.isFor name hash = true := by
  rw [getEntryInHlist, List.find?_isSome]
  rfl

theorem devsetIgnore_eq (kind : set.whiteBlack ≠ ipsNone)
    (looked : set.finds jhash dev = some found) :
    devsetIgnore jhash dev.name.toList set =
      some (decide (set.whiteBlack = if found then ipsBlack else ipsWhite)) := by
  rcases Option.map_eq_some_iff.mp looked with ⟨table, here, result⟩
  simp only [devsetIgnore, if_neg kind, here, result]
  cases found <;> simp

theorem devsetIgnore_unset (unset : set.whiteBlack = ipsNone) :
    devsetIgnore jhash dev.name.toList set = some true :=
  if_pos unset

/-- What was found is found later. -/
theorem Devset.Precedes.finds (precedes : set.Precedes set') (kind : set.whiteBlack ≠ ipsNone)
    (looked : set.finds jhash dev = some true) : set'.finds jhash dev = some true := by
  rcases Option.map_eq_some_iff.mp looked with ⟨table, here, result⟩
  rcases precedes.resolve_left kind with ⟨-, tables⟩
  rcases tables table here with ⟨table', here', suffix⟩
  rw [getEntryInHlist_isSome_iff] at result
  rcases result with ⟨e, member, found⟩
  rw [Devset.finds, here', Option.map_some, Option.some.injEq, getEntryInHlist_isSome_iff]
  exact ⟨e, (suffix _).subset member, found⟩

/-- Where the table is there, a lookup has a result. -/
theorem exists_finds (jhash : List UInt8 → UInt32 → UInt32)
    (table : set.devHashtable.isSome) (dev : NetDevice) :
    ∃ found, set.finds jhash dev = some found := by
  rcases Option.isSome_iff_exists.mp table with ⟨buckets, here⟩
  rw [Devset.finds, here]
  exact ⟨_, rfl⟩

theorem ignored_iff (table : set.devHashtable.isSome) :
    devsetIgnore jhash dev.name.toList set = some true ↔
      set.whiteBlack = ipsNone ∨
        set.finds jhash dev = some true ∧ set.whiteBlack = ipsBlack ∨
        set.finds jhash dev = some false ∧ set.whiteBlack = ipsWhite := by
  by_cases unset : set.whiteBlack = ipsNone
  · exact iff_of_true (devsetIgnore_unset unset) (Or.inl unset)
  · rcases exists_finds jhash table dev with ⟨found, looked⟩
    rw [devsetIgnore_eq unset looked, looked]
    cases found <;> simp [unset]

/-- A device that is ignored at the earlier of two moments is ignored at the later one, or
what is ignored at the later one was ignored at the earlier one. -/
theorem Devset.Precedes.ignored (precedes : set.Precedes set')
    (jhash : List UInt8 → UInt32 → UInt32) (table : set.devHashtable.isSome)
    (table' : set'.devHashtable.isSome) :
    (∀ dev : NetDevice, devsetIgnore jhash dev.name.toList set = some true →
      devsetIgnore jhash dev.name.toList set' = some true) ∨
    ∀ dev : NetDevice, devsetIgnore jhash dev.name.toList set' = some true →
      devsetIgnore jhash dev.name.toList set = some true := by
  by_cases unset : set.whiteBlack = ipsNone
  · exact Or.inr fun dev _ => devsetIgnore_unset unset
  · have kind := (precedes.resolve_left unset).1
    by_cases black : set.whiteBlack = ipsBlack
    · -- Names that are on a black list stay on it.
      left
      intro dev ignored
      rcases (ignored_iff table).mp ignored with none | ⟨looked, -⟩ | ⟨-, white⟩
      · exact absurd none unset
      · exact (ignored_iff table').mpr
          (Or.inr (Or.inl ⟨precedes.finds unset looked, kind.trans black⟩))
      · rw [black] at white
        exact absurd white (by decide)
    · right
      intro dev ignored
      rcases (ignored_iff table').mp ignored with none | ⟨-, black'⟩ | ⟨looked, white⟩
      · exact absurd (kind.symm.trans none) unset
      · exact absurd (kind.symm.trans black') black
      · rcases exists_finds jhash table dev with ⟨found, before⟩
        cases found with
        | true =>
            rw [precedes.finds unset before, Option.some.injEq] at looked
            exact absurd looked (by simp)
        | false =>
            exact (ignored_iff table).mpr (Or.inr (Or.inr ⟨before, kind.symm.trans white⟩))

/-- One more device is ignored; one moment serves for all. -/
theorem AllIgnored.snoc (all : AllIgnored jhash past devs)
    (ordered : Ordered Devset.Precedes past now)
    (tables : ∀ set ∈ past, set.devHashtable.isSome) (member : set ∈ past)
    (ignored : devsetIgnore jhash dev.name.toList set = some true) :
    AllIgnored jhash past (devs ++ [dev]) := by
  rcases all with ⟨earlier, member', others⟩
  have both : ∀ one ∈ past, (∀ d ∈ devs, devsetIgnore jhash d.name.toList one = some true) →
      devsetIgnore jhash dev.name.toList one = some true →
      AllIgnored jhash past (devs ++ [dev]) := by
    intro one inPast rest last
    refine ⟨one, inPast, ?_⟩
    intro d among
    rcases List.mem_append.mp among with old | new
    · exact rest d old
    · rw [List.mem_singleton.mp new]
      exact last
  have table := tables set member
  have table' := tables earlier member'
  rcases ordered.compare member' member with before | after
  · rcases before.ignored jhash table' table with forward | backward
    · exact both set member (fun d among => forward d (others d among)) ignored
    · exact both earlier member' others (backward dev ignored)
  · rcases after.ignored jhash table table' with forward | backward
    · exact both earlier member' others (forward dev ignored)
    · exact both set member (fun d among => backward d (others d among)) ignored

end Sets

/-! ## What a packet has seen -/

/-- What a hook decided about a packet: the record it puts, if any, and the device sets
there were since the packet arrived. -/
structure Decision where
  packet : Packet
  answer : Option IpKeyInfo
  past : List Devset

/-- The chains of the table, the device sets that each packet has met since it arrived, and what was
decided of the packets so far. -/
structure Journal where
  chains : ℕ → List ℕ
  past : ℕ → List Devset
  decisions : List Decision

/-- The hook has not decided yet. -/
def HookTask.Undecided : HookTask → Prop
  | arrived | ignoring _ | gating _ _ _ | heading _ _ _ | walking _ _ _ | deciding _ _ _
  | filling => True
  | _ => False

instance (task : HookTask) : Decidable task.Undecided := by
  cases task <;> unfold HookTask.Undecided <;> infer_instance

/-- What is decided by a step from one place to another. -/
def decisionOf (pc pc' : CapturePc) : Option (Packet × Option IpKeyInfo) :=
  match pc, pc' with
  | .hook p task, .hook _ (.entering info) => if task.Undecided then some (p, some info) else none
  | .hook p task, .hook _ .returning => if task.Undecided then some (p, none) else none
  | _, _ => none

/-- Whether a packet arrives. -/
def arrives (pc pc' : CapturePc) : Bool :=
  match pc, pc' with
  | .resting, .hook _ _ => true
  | _, _ => false

section

variable (jhash : List UInt8 → UInt32 → UInt32) (ncpu : ℕ)

/-- Every step adds the device set after it to the past of every packet. -/
def journalStep (s : Captures) (event : ℕ × CaptureAct) (j : Journal) : Journal :=
  let after := captureStep jhash ncpu s event
  let chains := chainsStep jhash ncpu s event j.chains
  let past : ℕ → List Devset := fun t =>
    (if t = event.1 ∧ arrives (s.pc t) (after.pc t) then [] else j.past t) ++
      [after.shared.view chains]
  { chains := chains
    past := past
    decisions := j.decisions ++
      ((decisionOf (s.pc event.1) (after.pc event.1)).map fun d =>
        ⟨d.1, d.2, past event.1⟩).toList }

/-- What a packet has learnt at a point of its lookup from the device sets it has met. -/
def HookTask.Knows (c : Capture) (chains : ℕ → List ℕ) (p : Packet) (past : List Devset) :
    HookTask → Prop
  | ignoring left => ∃ seen, p.devices = seen ++ left ∧ AllIgnored jhash past seen
  | gating dev left _ => ∃ seen, p.devices = seen ++ dev :: left ∧ AllIgnored jhash past seen
  | heading dev left _ => (∃ seen, p.devices = seen ++ dev :: left ∧ AllIgnored jhash past seen) ∧
      ∃ set ∈ past, set.whiteBlack ≠ ipsNone
  | walking dev left pos =>
      (∃ seen, p.devices = seen ++ dev :: left ∧ AllIgnored jhash past seen) ∧
      ∃ set ∈ past, set.whiteBlack ≠ ipsNone ∧ ∃ table list visited,
        set.devHashtable = some table ∧
        list <:+ chains (smallJhash (devHash jhash dev.name.toList)) ∧
        table (smallJhash (devHash jhash dev.name.toList)) = list.filterMap c.entryOf ∧
        At c.nextOf list visited pos ∧
        ∀ q ∈ visited, ∀ e, c.entryOf q = some e →
          e.isFor dev.name.toList (devHash jhash dev.name.toList) = false
  | deciding dev left found =>
      (∃ seen, p.devices = seen ++ dev :: left ∧ AllIgnored jhash past seen) ∧
      ∃ set ∈ past, set.whiteBlack ≠ ipsNone ∧ set.finds jhash dev = some found
  | filling => ∃ set ∈ past, ∃ dev ∈ p.devices, devsetIgnore jhash dev.name.toList set = some false
  | _ => True

/-- What is known of a packet in a hook. -/
structure Witnessed (c : Capture) (chains : ℕ → List ℕ) (p : Packet) (task : HookTask)
    (past : List Devset) : Prop where
  ordered : Ordered Devset.Precedes past (c.view chains)
  tables : ∀ set ∈ past, set.devHashtable.isSome
  knows : task.Knows jhash c chains p past

/-- What a packet has learnt holds, and what was decided is what a set of its past decides. -/
structure JournalInv (s : Captures) (j : Journal) : Prop where
  inv : CaptureInv jhash ncpu s j.chains
  witnessed : ∀ t p task, s.pc t = .hook p task →
    Witnessed jhash s.shared j.chains p task (j.past t)
  decided : ∀ d ∈ j.decisions, ∃ set ∈ d.past, d.packet.info jhash set = some d.answer

end

section Knowledge

variable {jhash : List UInt8 → UInt32 → UInt32} {ncpu : ℕ} {c c' : Capture}
  {chains chains' : ℕ → List ℕ} {p : Packet} {past past' : List Devset} {task task' : HookTask}
  {dev : NetDevice} {left : List NetDevice} {set : Devset}

theorem AllIgnored.mono {devs : List NetDevice} (all : AllIgnored jhash past devs)
    (more : past ⊆ past') : AllIgnored jhash past' devs := by
  rcases all with ⟨set, member, ignored⟩
  exact ⟨set, more member, ignored⟩

/-- What a packet has seen stays true while the buckets grow in front. -/
theorem HookTask.Knows.carry (knows : task.Knows jhash c chains p past) (more : past ⊆ past')
    (grows : Grows c c' chains chains') : task.Knows jhash c' chains' p past' := by
  have seen : ∀ {left : List NetDevice},
      (∃ seen, p.devices = seen ++ left ∧ AllIgnored jhash past seen) →
      ∃ seen, p.devices = seen ++ left ∧ AllIgnored jhash past' seen := by
    rintro left ⟨seen, split, all⟩
    exact ⟨seen, split, all.mono more⟩
  cases task with
  | ignoring left => exact seen knows
  | gating dev left table => exact seen knows
  | heading dev left table =>
      rcases knows with ⟨earlier, set, member, kind⟩
      exact ⟨seen earlier, set, more member, kind⟩
  | walking dev left pos =>
      rcases knows with ⟨earlier, set, member, kind, table, list, visited, tabled, suffix, bucket,
        walks, missed⟩
      rcases grows (smallJhash (devHash jhash dev.name.toList)) with ⟨⟨front, chain⟩, nodes⟩
      have same : ∀ q ∈ list, c'.nodes q = c.nodes q :=
        fun q inList => nodes q (suffix.subset inList)
      have entries : ∀ q ∈ list, c'.entryOf q = c.entryOf q :=
        fun q inList => congrArg (Option.map DevNode.entry) (same q inList)
      refine ⟨seen earlier, set, more member, kind, table, list, visited, tabled, ?_, ?_, ?_, ?_⟩
      · rw [chain]
        exact suffix.trans (List.suffix_append front _)
      · rw [bucket]
        exact List.filterMap_congr fun q inList => (entries q inList).symm
      · exact walks.congr fun q inList => nextOf_congr (same q inList)
      · intro q passed e here
        apply missed q passed e
        rcases walks with ⟨rest, rfl, -⟩
        rwa [← entries q (List.mem_append_left rest passed)]
  | deciding dev left found =>
      rcases knows with ⟨earlier, set, member, kind, looked⟩
      exact ⟨seen earlier, set, more member, kind, looked⟩
  | filling =>
      rcases knows with ⟨set, member, noticed⟩
      exact ⟨set, more member, noticed⟩
  | _ => trivial

/-- The list kind of an earlier moment is that of now. -/
theorem kind_eq_of_ordered {now : Devset} (ordered : Ordered Devset.Precedes past now)
    (member : set ∈ past) (kind : set.whiteBlack ≠ ipsNone) :
    now.whiteBlack = set.whiteBlack :=
  ((ordered.upToNow set member).resolve_left kind).1

/-- A packet that takes a look knows what it has seen. -/
theorem HookLooks.knows (looks : HookLooks jhash c p task task')
    (ordered : Ordered Devset.Precedes past (c.view chains))
    (tables : ∀ set ∈ past, set.devHashtable.isSome)
    (memory : ∀ t heads, c.table = some (t, heads) → ∀ i, Linked c.nextOf (heads i) (chains i))
    (current : ∀ dev left table, task = .heading dev left table → table = c.devHashtable)
    (knows : task.Knows jhash c chains p past) : task'.Knows jhash c chains p past := by
  have now := ordered.isNow
  cases looks with
  | waits => exact knows
  | begins header => exact ⟨[], rfl, c.view chains, now, fun dev none => absurd none (by simp)⟩
  | looksUp dev left => exact knows
  | unset dev left table none =>
      rcases knows with ⟨seen, split, all⟩
      refine ⟨seen ++ [dev], by rw [split]; simp, ?_⟩
      exact all.snoc ordered tables now (devsetIgnore_unset none)
  | gates dev left table kind => exact ⟨knows, c.view chains, now, kind⟩
  | heads dev left table first here =>
      rcases knows with ⟨earlier, set, member, kind⟩
      have kind' : (c.view chains).whiteBlack ≠ ipsNone := by
        rw [kind_eq_of_ordered ordered member kind]
        exact kind
      rw [current dev left table rfl] at here
      rcases Option.bind_eq_some_iff.mp here with ⟨t, pointer, contents⟩
      have linked := memory t first (table_eq_some_iff.mpr ⟨pointer, contents⟩)
      refine ⟨earlier, c.view chains, now, kind', fun bucket => (chains bucket).filterMap c.entryOf,
        chains _, [], ?_, List.suffix_rfl, rfl, At.start (linked _),
        fun q none => absurd none List.not_mem_nil⟩
      rw [Capture.view, pointer]
      rfl
  | misses dev left =>
      rcases knows with ⟨earlier, set, member, kind, table, list, visited, tabled, suffix, bucket,
        walks, missed⟩
      refine ⟨earlier, set, member, kind, ?_⟩
      rw [Devset.finds, tabled, Option.map_some, Option.some.injEq, bucket, walks.finish]
      rw [← Bool.not_eq_true, getEntryInHlist_isSome_iff]
      rintro ⟨e, listed, found⟩
      rcases List.mem_filterMap.mp listed with ⟨q, passed, here⟩
      rw [missed q passed e here] at found
      exact absurd found (by simp)
  | finds dev left pos node here found =>
      rcases knows with ⟨earlier, set, member, kind, table, list, visited, tabled, suffix, bucket,
        walks, missed⟩
      refine ⟨earlier, set, member, kind, ?_⟩
      rw [Devset.finds, tabled, Option.map_some, Option.some.injEq, bucket,
        getEntryInHlist_isSome_iff]
      refine ⟨node.entry, ?_, found⟩
      rw [List.mem_filterMap]
      exact ⟨pos, walks.mem, by rw [Capture.entryOf, here]; rfl⟩
  | walks dev left pos node here other =>
      rcases knows with ⟨earlier, set, member, kind, table, list, visited, tabled, suffix, bucket,
        walks, missed⟩
      refine ⟨earlier, set, member, kind, table, list, visited ++ [pos], tabled, suffix, bucket,
        walks.forward ?_, ?_⟩
      · rw [Capture.nextOf, here]
        rfl
      · intro q passed e entry
        rcases List.mem_append.mp passed with old | new
        · exact missed q old e entry
        · rw [List.mem_singleton.mp new, Capture.entryOf, here, Option.map_some,
            Option.some.injEq] at entry
          rw [← entry]
          exact other
  | decides dev left found same =>
      rcases knows with ⟨⟨seen, split, all⟩, set, member, kind, looked⟩
      refine ⟨seen ++ [dev], by rw [split]; simp, ?_⟩
      apply all.snoc ordered tables member
      rw [devsetIgnore_eq kind looked, ← kind_eq_of_ordered ordered member kind]
      exact congrArg some (decide_eq_true same)
  | notices dev left found differ =>
      rcases knows with ⟨⟨seen, split, -⟩, set, member, kind, looked⟩
      refine ⟨set, member, dev, by rw [split]; simp, ?_⟩
      rw [devsetIgnore_eq kind looked, ← kind_eq_of_ordered ordered member kind]
      exact congrArg some (decide_eq_false differ)
  | _ => trivial

/-! ## What is decided -/

theorem info_eq_of_ignore {ignored : Bool}
    (decided : ignore jhash p.inDev p.outDev set = some ignored) :
    p.info jhash set = some (if ignored then none else p.filled) := by
  rw [Packet.info_eq]
  simp only [Packet.filled]
  cases p.header with
  | none => cases ignored <;> rfl
  | some h =>
      simp only [hookInfo, decided, Option.bind_some]
      cases ignored with
      | true => rfl
      | false =>
          simp only [Bool.false_eq_true, if_false]
          cases infoPorts p.skb
            { infoOut p.outDev (infoIn p.inDev emptyInfo) with
              protocol := h.protocol, s := h.s, d := h.d, version := h.version } <;> rfl

theorem ignore_of_all
    (all : ∀ dev ∈ p.devices, devsetIgnore jhash dev.name.toList set = some true) :
    ignore jhash p.inDev p.outDev set = some true := by
  simp only [Packet.devices] at all
  cases inside : p.inDev with
  | none =>
      cases outside : p.outDev with
      | none => rfl
      | some dev =>
          have last := all dev (by simp [outside])
          simp [ignore, ignoreDevice, last]
  | some dev =>
      have first := all dev (by simp [inside])
      cases outside : p.outDev with
      | none => simp [ignore, ignoreDevice, first]
      | some other =>
          have last := all other (by simp [outside])
          simp [ignore, ignoreDevice, first, last]

theorem ignore_of_noticed (table : set.devHashtable.isSome)
    (noticed : ∃ dev ∈ p.devices, devsetIgnore jhash dev.name.toList set = some false) :
    ignore jhash p.inDev p.outDev set = some false := by
  apply (Packet.ignore_eq_false_iff ?_).mpr noticed
  exact fun dev _ => (devsetIgnore_isSome_iff dev.name.toList).mpr (Or.inr table)

/-- What a hook decides is right for one moment since the packet arrived. -/
theorem HookLooks.decided_right (looks : HookLooks jhash c p task task')
    (ordered : Ordered Devset.Precedes past (c.view chains))
    (tables : ∀ set ∈ past, set.devHashtable.isSome)
    (knows : task.Knows jhash c chains p past) {q : Packet} {answer : Option IpKeyInfo}
    (decided : decisionOf (.hook p task) (.hook p task') = some (q, answer)) :
    ∃ set ∈ past, q.info jhash set = some answer := by
  cases looks with
  | waits =>
      have undecided : decisionOf (.hook p task) (.hook p task) = none := by
        cases task <;> simp [decisionOf, HookTask.Undecided]
      rw [undecided] at decided
      exact absurd decided (by simp)
  | passes header =>
      cases decided
      refine ⟨c.view chains, ordered.isNow, ?_⟩
      rw [Packet.info_eq, header]
  | ignores =>
      cases decided
      rcases knows with ⟨seen, split, set, member, all⟩
      rw [List.append_nil] at split
      refine ⟨set, member, info_eq_of_ignore (ignore_of_all ?_)⟩
      rw [split]
      exact all
  | accepts made =>
      cases decided
      rcases knows with ⟨set, member, noticed⟩
      refine ⟨set, member, ?_⟩
      rw [info_eq_of_ignore (ignore_of_noticed (tables set member) noticed), ← made]
      rfl
  | fills info made =>
      cases decided
      rcases knows with ⟨set, member, noticed⟩
      refine ⟨set, member, ?_⟩
      rw [info_eq_of_ignore (ignore_of_noticed (tables set member) noticed), ← made]
      rfl
  | _ => exact absurd decided (by simp [decisionOf, HookTask.Undecided])

end Knowledge

/-! ## A step -/

/-- A later state of the same session. -/
structure Later (c c' : Capture) (chains chains' : ℕ → List ℕ) : Prop where
  grows : Grows c c' chains chains'
  table : c'.devHashtable = c.devHashtable
  kind : c'.whiteBlack = c.whiteBlack ∨ c.whiteBlack = ipsNone

section Step

variable {jhash : List UInt8 → UInt32 → UInt32} {ncpu : ℕ} {c c' : Capture}
  {chains chains' : ℕ → List ℕ} {s : Captures} {t : ℕ} {task : CaptureTask} {pc' : CapturePc}

theorem Later.precedes (later : Later c c' chains chains') :
    (c.view chains).Precedes (c'.view chains') := by
  rcases later.kind with same | unset
  · refine Or.inr ⟨same, ?_⟩
    intro table here
    rcases Option.map_eq_some_iff.mp here with ⟨t, pointer, rfl⟩
    refine ⟨_, by rw [Capture.view, later.table, pointer]; rfl, ?_⟩
    intro bucket
    show (chains bucket).filterMap c.entryOf <:+ (chains' bucket).filterMap c'.entryOf
    rcases later.grows bucket with ⟨⟨front, chain⟩, nodes⟩
    have entries : (chains bucket).filterMap c'.entryOf = (chains bucket).filterMap c.entryOf :=
      List.filterMap_congr fun q member => congrArg (Option.map DevNode.entry) (nodes q member)
    rw [chain, List.filterMap_append, entries]
    exact List.suffix_append _ _
  · exact Or.inl unset

theorem later_refl (c : Capture) (chains : ℕ → List ℕ) : Later c c chains chains :=
  ⟨(SameMemory.refl c chains).grows, rfl, Or.inl rfl⟩

theorem later_of_nodes (nodes : ∀ i, ∀ q ∈ chains i, c'.nodes q = c.nodes q)
    (table : c'.devHashtable = c.devHashtable)
    (kind : c'.whiteBlack = c.whiteBlack ∨ c.whiteBlack = ipsNone) : Later c c' chains chains :=
  ⟨fun i => ⟨⟨[], rfl⟩, nodes i⟩, table, kind⟩

/-- A step of a packet leaves the device set alone. -/
theorem later_of_packet {pc : CapturePc} (took : CaptureTook jhash ncpu c pc c' pc')
    (other : ¬pc.IsClient) : Later c c' chains chains := by
  cases took with
  | counts p put fifo pkts => cases put <;> exact later_of_nodes (fun _ _ _ => rfl) rfl (Or.inl rfl)
  | arrives | looks | disables | puts | alarms | leaves | returns | stays =>
      exact later_of_nodes (fun _ _ _ => rfl) rfl (Or.inl rfl)
  | _ => exact absurd trivial other

/-- While packets may be in a hook, the client only adds to the device set. -/
theorem later_of_client (inv : CaptureInv jhash ncpu s chains) (here : s.pc t = .client task)
    (took : CaptureTook jhash ncpu s.shared (.client task) c' pc') (runs : 0 < task.mayRun) :
    Later s.shared c' chains (chainsAfter jhash (.client task) pc' chains) := by
  have idle : ∀ {P : Prop}, task.mayRun = 0 → P := by
    intro P quiet
    rw [quiet] at runs
    exact absurd runs (lt_irrefl 0)
  have owned : ∀ q, task.owns = some q → ∀ i, q ∉ chains i := by
    intro q owns i member
    exact inv.custody.apart t q (by rw [here]; exact owns) (inv.mem_entries member)
  cases took with
  | stays =>
      rw [chainsAfter_looks (@CaptureLooks.waits jhash s.shared task)]
      exact later_refl s.shared chains
  | clientLooks looks =>
      rw [chainsAfter_looks looks]
      exact later_refl s.shared chains
  | opens | noTable | inits | noPercpu | undoes | creates | exits | frees | freesTable | forgets =>
      exact idle rfl
  | configures args unset kind => exact later_of_nodes (fun _ _ _ => rfl) rfl (Or.inr unset)
  | allocates name rest q free =>
      have off : ∀ i, q ∉ chains i := by
        intro i member
        have live := inv.isSome_of_mem member
        rw [free] at live
        exact absurd live (by simp)
      exact later_of_nodes (sameMemory_setNode off _).nodes rfl (Or.inl rfl)
  | links name rest q table heads node tabled present =>
      exact later_of_nodes (sameMemory_setNode (owned q rfl) _).nodes rfl (Or.inl rfl)
  | publishes name rest q table heads tabled =>
      refine ⟨?_, rfl, Or.inl rfl⟩
      intro i
      refine ⟨?_, fun _ _ => rfl⟩
      by_cases own : i = bucketOf jhash name rest
      · exact ⟨[q], by rw [own, chainsAfter, Function.update_self]; rfl⟩
      · exact ⟨[], by rw [chainsAfter, Function.update_of_ne own]; rfl⟩
  | enters task new request =>
      rcases request with ⟨args, rfl, -, -⟩ | ⟨args, rfl, -, -⟩ <;>
        exact later_of_nodes (fun _ _ _ => rfl) rfl (Or.inl rfl)
  | moves args cpu copied infonum q cpus f queue present onward =>
      cases onward <;> exact later_of_nodes (fun _ _ _ => rfl) rfl (Or.inl rfl)
  | registers | countsGets | restores | closes | unregisters =>
      exact later_of_nodes (fun _ _ _ => rfl) rfl (Or.inl rfl)

/-- While a packet is in a hook, every step leads to a later state. -/
theorem CaptureInv.later (inv : CaptureInv jhash ncpu s chains) (event : ℕ × CaptureAct)
    {u : ℕ} {p : Packet} {hook : HookTask} (inHook : s.pc u = .hook p hook) :
    Later s.shared (captureStep jhash ncpu s event).shared chains
      (chainsStep jhash ncpu s event chains) := by
  have took : CaptureTook jhash ncpu s.shared (s.pc event.1) _ _ :=
    took_captureAct (s.pc event.1) event.2 (inv.usable event.1)
  have moved : (captureStep jhash ncpu s event).pc event.1 =
      (captureAct jhash ncpu s.shared (s.pc event.1) event.2).2 := pc_move_self
  rw [chainsStep, moved]
  cases here : s.pc event.1 with
  | client task =>
      rcases (inv.guests u p hook inHook).hook with ⟨i, below, -⟩
      rw [inv.task_eq here] at below
      rw [here] at took
      have later := later_of_client inv here took (Nat.zero_lt_of_lt below)
      rw [← here] at later ⊢
      exact later
  | _ => exact later_of_packet took (by rw [here]; exact id)

theorem CaptureInv.view_table (inv : CaptureInv jhash ncpu s chains) {u : ℕ} {p : Packet}
    {hook : HookTask} (inHook : s.pc u = .hook p hook) :
    (s.shared.view chains).devHashtable.isSome := by
  rw [Capture.view, Option.isSome_map]
  exact inv.memory.table (inv.guests u p hook inHook).hasQueue.1

theorem Witnessed.next {p : Packet} {hook : HookTask} {past : List Devset}
    (witnessed : Witnessed jhash c chains p hook past) (later : Later c c' chains chains')
    (table : (c'.view chains').devHashtable.isSome) :
    Witnessed jhash c' chains' p hook (past ++ [c'.view chains']) := by
  refine ⟨witnessed.ordered.next later.precedes, ?_, ?_⟩
  · intro set member
    rcases List.mem_append.mp member with old | last
    · exact witnessed.tables set old
    · rw [List.mem_singleton.mp last]
      exact table
  · apply witnessed.knows.carry _ later.grows
    exact List.subset_append_left past _

/-- A step of a packet keeps what is known of it. -/
theorem CaptureInv.witnessed_took (inv : CaptureInv jhash ncpu s chains) {p : Packet}
    {hook hook' : HookTask} {past : List Devset} (here : s.pc t = .hook p hook)
    (witnessed : Witnessed jhash s.shared chains p hook past)
    (took : CaptureTook jhash ncpu s.shared (.hook p hook) c' (.hook p hook')) :
    Witnessed jhash s.shared chains p hook' past := by
  have ordered := witnessed.ordered
  have tables := witnessed.tables
  cases took with
  | stays => exact witnessed
  | looks p looks =>
      refine ⟨ordered, tables, ?_⟩
      apply looks.knows ordered tables inv.memory.linked _ witnessed.knows
      intro dev left table heading
      have relies := (inv.guests t p _ here).relies
      rw [heading] at relies
      exact relies
  | disables | puts | counts | alarms | leaves => exact ⟨ordered, tables, trivial⟩

theorem decided_of_took {p q : Packet} {hook : HookTask} {answer : Option IpKeyInfo}
    {past : List Devset} (witnessed : Witnessed jhash c chains p hook past)
    (took : CaptureTook jhash ncpu c (.hook p hook) c' pc')
    (decided : decisionOf (.hook p hook) pc' = some (q, answer)) :
    ∃ set ∈ past, q.info jhash set = some answer := by
  have right : ∀ hook', HookLooks jhash c p hook hook' →
      decisionOf (.hook p hook) (.hook p hook') = some (q, answer) →
      ∃ set ∈ past, q.info jhash set = some answer :=
    fun hook' looks => looks.decided_right witnessed.ordered witnessed.tables witnessed.knows
  cases took with
  | stays => exact right hook (.waits hook) decided
  | looks p looks => exact right _ looks decided
  | _ => exact absurd decided (by simp [decisionOf, HookTask.Undecided])

/-- A packet stays itself, and comes to its hook before it does anything there. -/
theorem CaptureTook.packet {pc : CapturePc} {p : Packet} {hook : HookTask}
    (took : CaptureTook jhash ncpu c pc c' (.hook p hook)) :
    (∃ old, pc = .hook p old) ∨ pc = .resting ∧ hook = .arrived := by
  cases took with
  | arrives => exact Or.inr ⟨rfl, rfl⟩
  | stays | looks | disables | puts | counts | alarms | leaves => exact Or.inl ⟨_, rfl⟩

theorem JournalInv.step {j : Journal} (inv : JournalInv jhash ncpu s j)
    (event : ℕ × CaptureAct) :
    JournalInv jhash ncpu (captureStep jhash ncpu s event) (journalStep jhash ncpu s event j) := by
  have kept := inv.inv.step event
  have took : CaptureTook jhash ncpu s.shared (s.pc event.1)
      (captureStep jhash ncpu s event).shared ((captureStep jhash ncpu s event).pc event.1) := by
    have moved : (captureStep jhash ncpu s event).pc event.1 =
        (captureAct jhash ncpu s.shared (s.pc event.1) event.2).2 := pc_move_self
    rw [moved]
    exact took_captureAct (s.pc event.1) event.2 (inv.inv.usable event.1)
  have past : ∀ u, ¬(u = event.1 ∧ arrives (s.pc u) ((captureStep jhash ncpu s event).pc u)) →
      (journalStep jhash ncpu s event j).past u = j.past u ++
        [(captureStep jhash ncpu s event).shared.view
          (chainsStep jhash ncpu s event j.chains)] := by
    intro u stays
    simp only [journalStep, if_neg stays]
  refine ⟨kept, ?_, ?_⟩
  · intro u p hook after
    have table := kept.view_table after
    by_cases self : u = event.1
    · rw [self] at after ⊢
      rw [after] at took
      rcases took.packet with ⟨old, before⟩ | ⟨before, arrived⟩
      · rw [past event.1 (by rw [before]; simp [arrives])]
        rw [before] at took
        have witnessed := inv.witnessed event.1 p old before
        exact (inv.inv.witnessed_took before witnessed took).next (inv.inv.later event before) table
      · have fresh : (journalStep jhash ncpu s event j).past event.1 =
            [(captureStep jhash ncpu s event).shared.view
              (chainsStep jhash ncpu s event j.chains)] := by
          simp [journalStep, before, after, arrives]
        rw [fresh, arrived]
        refine ⟨Ordered.start _, ?_, trivial⟩
        intro set member
        rw [List.mem_singleton.mp member]
        exact table
    · have before : s.pc u = .hook p hook := by
        rw [← after]
        exact (pc_move_of_ne self).symm
      rw [past u fun both => self both.1]
      exact (inv.witnessed u p hook before).next (inv.inv.later event before) table
  · intro d member
    rcases List.mem_append.mp member with old | new
    · exact inv.decided d old
    · rw [Option.mem_toList, Option.map_eq_some_iff] at new
      rcases new with ⟨⟨q, answer⟩, decided, rfl⟩
      cases before : s.pc event.1 with
      | hook p hook =>
          rw [before] at took decided
          have witnessed := inv.witnessed event.1 p hook before
          rcases decided_of_took witnessed took decided with ⟨set, seen, right⟩
          refine ⟨set, ?_, right⟩
          show set ∈ (journalStep jhash ncpu s event j).past event.1
          rw [past event.1 (by rw [before]; simp [arrives])]
          exact List.mem_append_left _ seen
      | _ =>
          rw [before] at decided
          exact absurd decided (by simp [decisionOf])

end Step

/-! ## Runs -/

section Runs

variable (jhash : List UInt8 → UInt32 → UInt32) (ncpu : ℕ)

/-- Nothing has been seen when the module is loaded. -/
def emptyJournal : Journal where
  chains := fun _ => []
  past := fun _ => []
  decisions := []

theorem journalInv_run (events : List (ℕ × CaptureAct)) :
    JournalInv jhash ncpu (run (captureStep jhash ncpu) loadedCapture events)
      (run (observe (captureStep jhash ncpu) (journalStep jhash ncpu))
        (loadedCapture, emptyJournal) events).2 := by
  have kept : ∀ (both : Captures × Journal) event, JournalInv jhash ncpu both.1 both.2 →
      JournalInv jhash ncpu (observe (captureStep jhash ncpu) (journalStep jhash ncpu) both event).1
        (observe (captureStep jhash ncpu) (journalStep jhash ncpu) both event).2 :=
    fun both event inv => inv.step event
  have first : JournalInv jhash ncpu (loadedCapture, emptyJournal).1
      (loadedCapture, emptyJournal).2 := by
    refine ⟨captureInv_loaded jhash ncpu, ?_, fun d member => absurd member List.not_mem_nil⟩
    intro t p task here
    by_cases zero : t = 0
    · simp [loadedCapture, zero] at here
    · simp [loadedCapture, zero] at here
  have both := invariant_of_step kept events first
  rw [run_observe_fst] at both
  exact both

/-- However the packets and the client interleave: what a hook decides about a packet, it
would have decided with the device set of one moment since the packet arrived, and the
chains that make these device sets are those of the memory. -/
theorem decides_as_at_one_moment (events : List (ℕ × CaptureAct)) :
    (∀ d ∈ (run (observe (captureStep jhash ncpu) (journalStep jhash ncpu))
        (loadedCapture, emptyJournal) events).2.decisions,
      ∃ set ∈ d.past, d.packet.info jhash set = some d.answer) ∧
    ∀ t heads, (run (captureStep jhash ncpu) loadedCapture events).shared.table = some (t, heads) →
      ∀ i, Linked (run (captureStep jhash ncpu) loadedCapture events).shared.nextOf (heads i)
        ((run (observe (captureStep jhash ncpu) (journalStep jhash ncpu))
          (loadedCapture, emptyJournal) events).2.chains i) := by
  have inv := journalInv_run jhash ncpu events
  exact ⟨inv.decided, inv.inv.memory.linked⟩

end Runs

end Linguafranca.Ipshark
