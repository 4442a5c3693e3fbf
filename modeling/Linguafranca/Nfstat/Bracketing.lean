import Linguafranca.Nfstat.Reading
import Linguafranca.Nfstat.Serving
import Linguafranca.Nfstat.Soundness
import Linguafranca.Support.Collect

/-!
# What a call returns lies between two counts

As a call adds up counters that only grow, each read at a time of its own, its sum lies between
the sums at its beginning and at its end, and no call returns less than one that returned
before it began. This holds in every run in which the addresses that are added are clear; an
address with the same first bytes can otherwise get an entry of its own in front of the old one.
The addresses must fit their arrays and the types of the packets have slots (`SlotServe`); what
the code writes elsewhere may land in the counters of another address.
-/

namespace Linguafranca.Nfstat

open SearchTree Run Collect

variable {ncpu : ℕ}

/-- The counter of one type on one CPU. -/
def IpCounterEntry.slot (entry : IpCounterEntry) (i cpu : ℕ) : ℕ :=
  ((entry.counter cpu).getD i ⟨0, 0⟩).number.toNat

/-- The packets of one type counted on all CPUs. -/
def IpCounterEntry.total (ncpu : ℕ) (entry : IpCounterEntry) (i : ℕ) : ℕ :=
  ∑ cpu ∈ Finset.range ncpu, entry.slot i cpu

/-- A call under way has seen the counters grow from where they stood at its beginning. -/
structure Underway (ncpu types : ℕ) (began counted : ℕ → ℕ) (earlier : List (List UInt64))
    (first : ℕ → ℕ → ℕ) (entry : IpCounterEntry) (progress : Progress) : Prop where
  atFirst : ∀ i < types, ∑ cpu ∈ Finset.range ncpu, first i cpu = began i
  grown : ∀ i cpu, first i cpu ≤ entry.slot i cpu
  within : progress.finished.length ≤ types
  cpus : progress.cpu ≤ ncpu
  sum : Bracket (first progress.finished.length) (entry.slot progress.finished.length)
    progress.cpu progress.number.toNat
  finished : ∀ i < progress.finished.length,
    began i ≤ (progress.finished.getD i 0).toNat ∧ (progress.finished.getD i 0).toNat ≤ counted i
  above : ∀ numbers ∈ earlier, ∀ i < types, (numbers.getD i 0).toNat ≤ began i

/-- Where the record and the entries agree. -/
structure Recorded (ncpu : ℕ) (nfs : NfsState) (record : Record) : Prop where
  sorted : Sorted entryKey (inorder nfs.iptree)
  sized : Sized nfs
  counted : ∀ ip entry, findipentry ip nfs.iptree = some entry → ∀ i < nfs.maxtype.toNat,
    entry.total ncpu i = record.counted ip i
  fits : ∀ ip i, record.counted ip i < 2 ^ 64
  results : ∀ ip numbers, numbers ∈ record.results ip →
    (findipentry ip nfs.iptree).isSome ∧ ∀ i < nfs.maxtype.toNat,
      (numbers.getD i 0).toNat ≤ record.counted ip i

/-- A call under way holds the lock for reading, and its sums are bracketed by what was counted. -/
structure CallsSound (ncpu : ℕ) (both : Serving × Record) : Prop where
  recorded : Recorded ncpu both.1.nfs both.2
  holds : ∀ t progress, both.1.caller t = .reading progress → t ∈ both.1.readers
  underway : ∀ t progress, both.1.caller t = .reading progress → ∃ entry first,
    findipentry progress.ip both.1.nfs.iptree = some entry ∧
      Underway ncpu both.1.nfs.maxtype.toNat (both.2.began t) (both.2.counted progress.ip)
        (both.2.earlier t) first entry progress

/-! ## One call -/

section Call

variable {types : ℕ} {began counted later : ℕ → ℕ} {earlier : List (List UInt64)}
  {first : ℕ → ℕ → ℕ} {entry grown : IpCounterEntry} {progress : Progress}

/-- Nothing is read of a call that begins. -/
theorem underway_enter (ip : NfsIpaddr)
    (exact_counts : ∀ i < types, entry.total ncpu i = began i)
    (earlier_le : ∀ numbers ∈ earlier, ∀ i < types, (numbers.getD i 0).toNat ≤ began i) :
    Underway ncpu types began counted earlier entry.slot entry ⟨ip, [], 0, 0⟩ where
  atFirst := exact_counts
  grown := fun _ _ => le_rfl
  within := Nat.zero_le types
  cpus := Nat.zero_le ncpu
  sum := bracket_zero _ _
  finished := by simp
  above := earlier_le

theorem Underway.grow
    (underway : Underway ncpu types began counted earlier first entry progress)
    (slots : ∀ i cpu, entry.slot i cpu ≤ grown.slot i cpu) (counts : ∀ i, counted i ≤ later i) :
    Underway ncpu types began later earlier first grown progress where
  atFirst := underway.atFirst
  grown := fun i cpu => (underway.grown i cpu).trans (slots i cpu)
  within := underway.within
  cpus := underway.cpus
  sum := underway.sum.grow (slots progress.finished.length)
  finished := fun i inside =>
    ⟨(underway.finished i inside).1, (underway.finished i inside).2.trans (counts i)⟩
  above := underway.above

theorem sum_slot_le_total {i count : ℕ} (inside : count ≤ ncpu) :
    ∑ cpu ∈ Finset.range count, entry.slot i cpu ≤ entry.total ncpu i := by
  apply Finset.sum_le_sum_of_subset
  exact Finset.range_subset_range.mpr inside

theorem Underway.advance {iptree : BinaryTree IpCounterEntry}
    (underway : Underway ncpu types began counted earlier first entry progress)
    (found : findipentry progress.ip iptree = some entry)
    (unfinished : progress.finished.length < types)
    (exact_counts : ∀ i < types, entry.total ncpu i = counted i)
    (fits : ∀ i, counted i < 2 ^ 64) :
    Underway ncpu types began counted earlier first entry (progress.advance ncpu iptree) := by
  have total := exact_counts progress.finished.length unfinished
  have fit := fits progress.finished.length
  simp only [Progress.advance]
  split
  · next more =>
      simp only [found]
      have next := underway.sum.read (underway.grown progress.finished.length progress.cpu)
      have below := next.upper.trans (sum_slot_le_total more)
      refine ⟨underway.atFirst, underway.grown, underway.within, more, ?_, underway.finished,
        underway.above⟩
      have unwrapped : (progress.number + ((entry.counter progress.cpu).getD
          progress.finished.length ⟨0, 0⟩).number).toNat =
          progress.number.toNat + entry.slot progress.finished.length progress.cpu := by
        rw [UInt64.toNat_add]
        apply Nat.mod_eq_of_lt
        exact below.trans_lt (by rwa [total])
      rw [unwrapped]
      exact next
  · next last =>
      have whole : progress.cpu = ncpu := le_antisymm underway.cpus (not_lt.mp last)
      have sum := underway.sum
      rw [whole] at sum
      have lower := sum.lower
      rw [underway.atFirst progress.finished.length unfinished] at lower
      have upper : progress.number.toNat ≤ counted progress.finished.length :=
        sum.upper.trans_eq total
      refine ⟨underway.atFirst, underway.grown, ?_, Nat.zero_le ncpu, bracket_zero _ _, ?_,
        underway.above⟩
      · simpa using unfinished
      · intro i inside
        simp only [List.length_append, List.length_singleton, Nat.lt_succ_iff_lt_or_eq] at inside
        rcases inside with before | rfl
        · rw [List.getD_append _ _ _ _ before]
          exact underway.finished i before
        · simpa using ⟨lower, upper⟩

/-- What a call returns lies between the counts, and above what earlier calls returned. -/
theorem Underway.returns
    (underway : Underway ncpu types began counted earlier first entry progress)
    (all : ¬progress.finished.length < types) :
    progress.finished.length = types ∧ ∀ i < types,
      began i ≤ (progress.finished.getD i 0).toNat ∧
        (progress.finished.getD i 0).toNat ≤ counted i ∧
          ∀ numbers ∈ earlier, (numbers.getD i 0).toNat ≤ (progress.finished.getD i 0).toNat := by
  have length := le_antisymm underway.within (not_lt.mp all)
  refine ⟨length, ?_⟩
  intro i inside
  rcases underway.finished i (by rwa [length]) with ⟨lower, upper⟩
  refine ⟨lower, upper, ?_⟩
  intro numbers listed
  exact (underway.above numbers listed i inside).trans lower

end Call

/-! ## One packet -/

section Packet

variable {entry : IpCounterEntry} {cpu i : ℕ} {typeidx : UInt8} {bytes : UInt64}

theorem slot_increment_of_ne {at_cpu : ℕ} (elsewhere : at_cpu ≠ cpu ∨ typeidx.toNat ≠ i) :
    (entry.increment cpu typeidx bytes).slot i at_cpu = entry.slot i at_cpu := by
  simp only [IpCounterEntry.slot, getD_increment_of_ne elsewhere]

theorem slot_increment_self (inside : typeidx.toNat < (entry.counter cpu).length)
    (fit : entry.slot typeidx.toNat cpu + 1 < 2 ^ 64) :
    (entry.increment cpu typeidx bytes).slot typeidx.toNat cpu =
      entry.slot typeidx.toNat cpu + 1 := by
  simp only [IpCounterEntry.slot, getD_increment_self inside, UInt64.toNat_add]
  exact Nat.mod_eq_of_lt fit

theorem slot_le_increment (at_cpu : ℕ) (inside : typeidx.toNat < (entry.counter cpu).length)
    (fit : entry.slot typeidx.toNat cpu + 1 < 2 ^ 64) :
    entry.slot i at_cpu ≤ (entry.increment cpu typeidx bytes).slot i at_cpu := by
  by_cases here : at_cpu = cpu ∧ typeidx.toNat = i
  · rcases here with ⟨rfl, rfl⟩
    rw [slot_increment_self inside fit]
    exact Nat.le_succ _
  · exact (slot_increment_of_ne (not_and_or.mp here)).ge

theorem total_increment_of_ne (other : typeidx.toNat ≠ i) :
    (entry.increment cpu typeidx bytes).total ncpu i = entry.total ncpu i := by
  apply Finset.sum_congr rfl
  intro at_cpu _
  exact slot_increment_of_ne (Or.inr other)

theorem total_increment_self (possible : cpu < ncpu)
    (inside : typeidx.toNat < (entry.counter cpu).length)
    (fit : entry.slot typeidx.toNat cpu + 1 < 2 ^ 64) :
    (entry.increment cpu typeidx bytes).total ncpu typeidx.toNat =
      entry.total ncpu typeidx.toNat + 1 := by
  have member : cpu ∈ Finset.range ncpu := Finset.mem_range.mpr possible
  have before := Finset.add_sum_erase _ (fun at_cpu => entry.slot typeidx.toNat at_cpu) member
  have after := Finset.add_sum_erase _
    (fun at_cpu => (entry.increment cpu typeidx bytes).slot typeidx.toNat at_cpu) member
  have others : ∑ at_cpu ∈ (Finset.range ncpu).erase cpu,
      (entry.increment cpu typeidx bytes).slot typeidx.toNat at_cpu =
        ∑ at_cpu ∈ (Finset.range ncpu).erase cpu, entry.slot typeidx.toNat at_cpu := by
    apply Finset.sum_congr rfl
    intro at_cpu other
    exact slot_increment_of_ne (Or.inl (Finset.ne_of_mem_erase other))
  rw [slot_increment_self inside fit, others] at after
  simp only [IpCounterEntry.total]
  omega

theorem slot_le_total (entry : IpCounterEntry) (i : ℕ) (possible : cpu < ncpu) :
    entry.slot i cpu ≤ entry.total ncpu i :=
  Finset.single_le_sum_of_canonicallyOrdered (Finset.mem_range.mpr possible)

end Packet

/-! ## The record and the entries -/

section Entries

variable {nfs : NfsState} {record : Record}

theorem findipentry_of_unset (sized : Sized nfs) (unset : nfs.maxtype = 0) (ip : NfsIpaddr) :
    findipentry ip nfs.iptree = none := by
  apply Option.eq_none_iff_forall_ne_some.mpr
  intro entry found
  exact sized.maxtype_ne_zero (mem_of_find found) unset

theorem map_ip_inccounter (ip : NfsIpaddr) (typeidx : UInt8) (bytes : UInt64) (cpu : ℕ)
    (iptree : BinaryTree IpCounterEntry) :
    (inorder (inccounter ip typeidx bytes cpu iptree)).map IpCounterEntry.ip =
      (inorder iptree).map IpCounterEntry.ip := by
  rw [inccounter_eq_modify]
  apply map_inorder_modify
  intro entry
  exact increment_ip entry cpu typeidx bytes

theorem sized_inccounter (sized : Sized nfs) (ip : NfsIpaddr) (typeidx : UInt8) (bytes : UInt64)
    (cpu : ℕ) : Sized { nfs with iptree := inccounter ip typeidx bytes cpu nfs.iptree } := by
  constructor
  · intro unset
    have same := map_ip_inccounter ip typeidx bytes cpu nfs.iptree
    rw [sized.unset unset] at same
    exact List.map_eq_nil_iff.mp same
  · intro entry stored at_cpu
    simp only [inccounter_eq_modify] at stored
    rcases mem_of_mem_modify stored with old | ⟨old, member, -, rfl⟩
    · exact sized.slots entry old at_cpu
    · rw [length_increment]
      exact sized.slots old member at_cpu

theorem total_newIpEntry (maxtype : UInt8) (ip : NfsIpaddr) (i : ℕ) :
    (newIpEntry maxtype ip).total ncpu i = 0 := by
  apply Finset.sum_eq_zero
  intro cpu _
  by_cases slot : i < maxtype.toNat
  · simp [IpCounterEntry.slot, newIpEntry, slot]
  · simp [IpCounterEntry.slot, newIpEntry, slot]

/-- A clear address that is added was not stored. -/
theorem storedIp_absent {maxtype : UInt8} {ip : NfsIpaddr} {created : Bool}
    {rebalance : Rebalance IpCounterEntry} {iptree : BinaryTree IpCounterEntry}
    (sorted : Sorted entryKey (inorder iptree))
    (clear : ClearCall iptree (.add ip created rebalance))
    (accepted : (addipentry maxtype ip created rebalance iptree).1 = true) :
    findipentry (storedIp ip) iptree = none := by
  rcases addipentry_cases maxtype ip created rebalance iptree with
    refused | ⟨some, allocated, missing, -⟩
  · simp [refused] at accepted
  · have absent := (findipentry_eq_none_iff sorted).mp missing
    apply (findipentry_eq_none_iff sorted).mpr
    intro stored member
    exact ne_storedIp_of_clear (clear allocated some absent) absent member

theorem Recorded.of_same {later : NfsState} (recorded : Recorded ncpu nfs record)
    (tree : later.iptree = nfs.iptree) (types : later.maxtype = nfs.maxtype) :
    Recorded ncpu later record where
  sorted := by
    rw [tree]
    exact recorded.sorted
  sized := ⟨by simpa only [tree, types] using recorded.sized.unset,
    by simpa only [tree, types] using recorded.sized.slots⟩
  counted := by simpa only [tree, types] using recorded.counted
  fits := recorded.fits
  results := by simpa only [tree, types] using recorded.results

/-- Until the number of types is set there is no entry. -/
theorem Recorded.of_unset {later : NfsState} (recorded : Recorded ncpu nfs record)
    (unset : nfs.maxtype = 0) (tree : later.iptree = nfs.iptree) (sized : Sized later) :
    Recorded ncpu later record := by
  have none := findipentry_of_unset recorded.sized unset
  constructor
  · rw [tree]
    exact recorded.sorted
  · exact sized
  · intro ip entry found
    simp [tree, none] at found
  · exact recorded.fits
  · intro ip numbers listed
    have present := (recorded.results ip numbers listed).1
    simp [none] at present

theorem Recorded.addip {ip : NfsIpaddr} {created : Bool} {rebalance : Rebalance IpCounterEntry}
    (recorded : Recorded ncpu nfs record)
    (clear : ClearCall nfs.iptree (.add ip created rebalance))
    (sized : Sized (NfsCmd.effect nfs (.addip ip created rebalance))) :
    Recorded ncpu (NfsCmd.effect nfs (.addip ip created rebalance))
      (NfsCmd.onRecord nfs record (.addip ip created rebalance)) := by
  rcases addipentry_cases nfs.maxtype ip created rebalance nfs.iptree with
    refused | ⟨-, -, -, linked, -, accepted⟩
  · simp only [NfsCmd.onRecord, NfsCmd.effect, refused, Bool.false_eq_true, if_false]
    exact recorded.of_same rfl rfl
  · have success : (addipentry nfs.maxtype ip created rebalance nfs.iptree).1 = true :=
      congrArg Prod.fst accepted
    have find := findipentry_addipentry nfs.maxtype recorded.sorted clear
    simp only [success, true_and] at find
    have absent := storedIp_absent recorded.sorted clear success
    simp only [NfsCmd.onRecord, success, if_true]
    constructor
    · exact (sorted_addipentry_iff nfs.maxtype recorded.sorted).mpr clear
    · exact sized
    · intro sought entry found i inside
      simp only [NfsCmd.effect, find] at found
      split at found
      · next here =>
          obtain rfl := Option.some.inj found
          simp only [Record.restart, here, if_true]
          exact total_newIpEntry nfs.maxtype ip i
      · next elsewhere =>
          simp only [Record.restart, if_neg elsewhere]
          exact recorded.counted sought entry found i inside
    · intro sought i
      simp only [Record.restart]
      split
      · simp
      · exact recorded.fits sought i
    · intro sought numbers listed
      rcases recorded.results sought numbers listed with ⟨present, below⟩
      have elsewhere : sought ≠ storedIp ip := by
        rintro rfl
        simp [absent] at present
      simp only [NfsCmd.effect, find, Record.restart, if_neg elsewhere]
      exact ⟨present, below⟩

theorem Recorded.rmvip {ip : NfsIpaddr} {rebalance : Rebalance IpCounterEntry}
    (recorded : Recorded ncpu nfs record)
    (sized : Sized (NfsCmd.effect nfs (.rmvip ip rebalance))) :
    Recorded ncpu (NfsCmd.effect nfs (.rmvip ip rebalance))
      (NfsCmd.onRecord nfs record (.rmvip ip rebalance)) := by
  have sorted := sorted_rmvipentry ip rebalance recorded.sorted
  have find := findipentry_rmvipentry ip recorded.sorted rebalance
  cases present : findipentry ip nfs.iptree with
  | none =>
      have refused : rmvipentry ip rebalance nfs.iptree = (false, nfs.iptree) := by
        simp [rmvipentry, present]
      simp only [NfsCmd.onRecord, NfsCmd.effect, refused, Bool.false_eq_true, if_false]
      exact recorded.of_same rfl rfl
  | some gone =>
      have removed : (rmvipentry ip rebalance nfs.iptree).1 = true := by
        simp [rmvipentry, present]
      simp only [NfsCmd.onRecord, removed, if_true]
      constructor
      · exact sorted
      · exact sized
      · intro sought entry found i inside
        simp only [NfsCmd.effect, find] at found
        split at found
        · simp at found
        · exact recorded.counted sought entry found i inside
      · exact recorded.fits
      · intro sought numbers listed
        simp only [Record.removed] at listed
        split at listed
        · simp at listed
        · next elsewhere =>
            simp only [NfsCmd.effect, find, if_neg elsewhere]
            exact recorded.results sought numbers listed

/-- An entry whose counters are recorded has room for one packet more. -/
theorem Recorded.room (recorded : Recorded ncpu nfs record) {ip : NfsIpaddr} {typeidx : UInt8}
    {entry : IpCounterEntry} (found : findipentry ip nfs.iptree = some entry) (cpu : Fin ncpu)
    (fit : record.counted ip typeidx.toNat + 1 < 2 ^ 64)
    (inside : typeidx.toNat < (entry.counter cpu).length) :
    entry.slot typeidx.toNat cpu + 1 < 2 ^ 64 := by
  rw [recorded.sized.slots entry (mem_of_find found)] at inside
  have below := slot_le_total entry typeidx.toNat cpu.isLt
  rw [recorded.counted ip entry found _ inside] at below
  omega

theorem findipentry_inccounter (sorted : Sorted entryKey (inorder nfs.iptree)) (ip : NfsIpaddr)
    (typeidx : UInt8) (bytes : UInt64) (cpu : ℕ) (sought : NfsIpaddr) :
    findipentry sought (inccounter ip typeidx bytes cpu nfs.iptree) =
      if sought = ip then
        (findipentry sought nfs.iptree).map fun entry => entry.increment cpu typeidx bytes
      else findipentry sought nfs.iptree := by
  rw [inccounter_eq_modify]
  exact findipentry_modify ip sorted cpu typeidx bytes sought

theorem Recorded.count {ip : NfsIpaddr} {typeidx : UInt8} {entry : IpCounterEntry}
    (recorded : Recorded ncpu nfs record) (found : findipentry ip nfs.iptree = some entry)
    (cpu : Fin ncpu) (bytes : UInt64) (fit : record.counted ip typeidx.toNat + 1 < 2 ^ 64) :
    Recorded ncpu { nfs with iptree := inccounter ip typeidx bytes cpu nfs.iptree }
      (record.count ip typeidx.toNat) := by
  have find := findipentry_inccounter recorded.sorted ip typeidx bytes cpu
  constructor
  · have same := map_ip_inccounter ip typeidx bytes cpu nfs.iptree
    exact (sorted_iff_of_map_ip same).mpr recorded.sorted
  · exact sized_inccounter recorded.sized ip typeidx bytes cpu
  · intro sought other counts i inside
    simp only [find] at counts
    simp only [Record.count]
    split at counts
    · next here =>
        subst here
        rw [found, Option.map_some] at counts
        obtain rfl := Option.some.inj counts
        have before := recorded.counted sought entry found i inside
        by_cases same : i = typeidx.toNat
        · subst same
          have slots : typeidx.toNat < (entry.counter cpu).length := by
            rwa [recorded.sized.slots entry (mem_of_find found)]
          simp [total_increment_self cpu.isLt slots (recorded.room found cpu fit slots), before]
        · simp [same, total_increment_of_ne (Ne.symm same), before]
    · next elsewhere =>
        simpa [elsewhere] using recorded.counted sought other counts i inside
  · intro sought i
    simp only [Record.count]
    split
    · next here =>
        rw [here.1, here.2]
        exact fit
    · exact recorded.fits sought i
  · intro sought numbers listed
    rcases recorded.results sought numbers listed with ⟨present, below⟩
    constructor
    · simp only [find]
      split
      · simpa using present
      · exact present
    · intro i inside
      exact (below i inside).trans (Nat.le_add_right _ _)

/-- What a call returns may be recorded when it is not above the counts. -/
theorem Recorded.finish {ip : NfsIpaddr} {numbers : List UInt64}
    (recorded : Recorded ncpu nfs record) (present : (findipentry ip nfs.iptree).isSome)
    (below : ∀ i < nfs.maxtype.toNat, (numbers.getD i 0).toNat ≤ record.counted ip i) :
    Recorded ncpu nfs (record.finish ip numbers) where
  sorted := recorded.sorted
  sized := recorded.sized
  counted := recorded.counted
  fits := recorded.fits
  results := by
    intro sought earlier listed
    simp only [Record.finish] at listed
    split at listed
    · next here =>
        subst here
        rcases List.mem_cons.mp listed with rfl | before
        · exact ⟨present, below⟩
        · exact recorded.results sought earlier before
    · exact recorded.results sought earlier listed

end Entries

/-! ## Steps -/

section Steps

variable {s : Serving} {record : Record}

theorem callsSound_of_idle {both : Serving × Record} (recorded : Recorded ncpu both.1.nfs both.2)
    (idle : ∀ t progress, both.1.caller t ≠ .reading progress) : CallsSound ncpu both where
  recorded := recorded
  holds := fun t progress reading => absurd reading (idle t progress)
  underway := fun t progress reading => absurd reading (idle t progress)

/-- A request that does not touch the entries does no harm to the calls. -/
theorem CallsSound.of_same {nfs : NfsState} (sound : CallsSound ncpu (s, record))
    (tree : nfs.iptree = s.nfs.iptree) (types : nfs.maxtype = s.nfs.maxtype) :
    CallsSound ncpu ({ s with nfs := nfs }, record) where
  recorded := sound.recorded.of_same tree types
  holds := sound.holds
  underway := by
    simp only [tree, types]
    exact sound.underway

theorem CallsSound.effect (sound : CallsSound ncpu (s, record)) {cmd : NfsCmd}
    (clear : ∀ ip created rebalance, cmd = .addip ip created rebalance →
      ClearCall s.nfs.iptree (.add ip created rebalance))
    (sized : Sized (cmd.effect s.nfs)) (free : cmd.writesTree → s.readers = []) :
    CallsSound ncpu ({ s with nfs := cmd.effect s.nfs }, cmd.onRecord s.nfs record) := by
  have idle (writes : cmd.writesTree = true) : ∀ t progress, s.caller t ≠ .reading progress := by
    intro t progress reading
    have holds := sound.holds t progress reading
    rw [free writes] at holds
    exact absurd holds List.not_mem_nil
  cases cmd with
  | addip ip created rebalance =>
      apply callsSound_of_idle _ (idle rfl)
      exact sound.recorded.addip (clear ip created rebalance rfl) sized
  | rmvip ip rebalance =>
      apply callsSound_of_idle _ (idle rfl)
      exact sound.recorded.rmvip sized
  | init maxtype =>
      have tree := (trees_init maxtype s.nfs).1
      by_cases unset : s.nfs.maxtype = 0
      · apply callsSound_of_idle
        · exact sound.recorded.of_unset unset tree sized
        · intro t progress reading
          rcases sound.underway t progress reading with ⟨entry, -, found, -⟩
          exact sound.recorded.sized.maxtype_ne_zero (mem_of_find found) unset
      · apply sound.of_same tree
        simp [NfsCmd.effect, unset]
  | _ => exact sound.of_same rfl rfl

theorem CallsSound.ioctl (sound : CallsSound ncpu (s, record)) {request : NfsRequest}
    (clear : ClearEvent s.nfs (.ioctl request : NfsEvent ncpu)) :
    CallsSound ncpu (observe serveStep recordStep (s, record)
      (.ioctl request : ServeEvent ncpu)) := by
  simp only [observe, serveStep, recordStep]
  split
  · exact sound
  · next proceeds =>
      have sized := sized_nfsStep sound.recorded.sized (.ioctl request : NfsEvent ncpu)
      simp only [nfsStep, nfsIoctl_snd] at sized
      rw [nfsIoctl_snd]
      cases admitted : request.admitted s.nfs with
      | none => exact sound
      | some cmd =>
          rw [admitted] at sized
          have same : request.cmd = cmd := by
            simp only [NfsRequest.admitted] at admitted
            split at admitted
            · exact Option.some.inj admitted
            · simp at admitted
          apply sound.effect _ sized
          · intro writes
            rw [← same] at writes
            by_contra busy
            exact proceeds ⟨writes, busy⟩
          · rintro ip created rebalance rfl
            exact clear ip created rebalance admitted

theorem CallsSound.count (sound : CallsSound ncpu (s, record)) {cpu : Fin ncpu}
    {ip : NfsIpaddr} {typeidx : UInt8} {bytes : UInt64}
    (fit : (findipentry ip s.nfs.iptree).isSome → record.counted ip typeidx.toNat + 1 < 2 ^ 64)
    (inRange : (findipentry ip s.nfs.iptree).isSome → typeidx < s.nfs.maxtype) :
    CallsSound ncpu (observe serveStep recordStep (s, record)
      (.inccounter cpu ip typeidx bytes : ServeEvent ncpu)) := by
  simp only [observe, serveStep, recordStep]
  cases found : findipentry ip s.nfs.iptree with
  | none =>
      have same : inccounter ip typeidx bytes cpu s.nfs.iptree = s.nfs.iptree := by
        simp [inccounter, found]
      rw [same]
      exact sound
  | some entry =>
      have room : record.counted ip typeidx.toNat + 1 < 2 ^ 64 := fit (by simp [found])
      have below : typeidx.toNat < s.nfs.maxtype.toNat :=
        UInt8.lt_iff_toNat_lt.mp (inRange (by simp [found]))
      have find := findipentry_inccounter sound.recorded.sorted ip typeidx bytes cpu
      constructor
      · exact sound.recorded.count found cpu bytes room
      · exact sound.holds
      · intro t progress reading
        rcases sound.underway t progress reading with ⟨held, first, holding, underway⟩
        have more : ∀ i, record.counted progress.ip i ≤
            (record.count ip typeidx.toNat).counted progress.ip i :=
          fun i => Nat.le_add_right _ _
        simp only [find]
        by_cases here : progress.ip = ip
        · rw [if_pos here, holding]
          refine ⟨held.increment cpu typeidx bytes, first, rfl, underway.grow ?_ more⟩
          intro i at_cpu
          rw [here] at holding
          have inside : typeidx.toNat < (held.counter cpu).length := by
            rwa [sound.recorded.sized.slots held (mem_of_find holding)]
          apply slot_le_increment at_cpu inside
          exact sound.recorded.room holding cpu room inside
        · rw [if_neg here]
          exact ⟨held, first, holding, underway.grow (fun _ _ => le_rfl) more⟩

/-- After one caller has moved, a call under way is its own or was under way before. -/
theorem reading_update {caller : ℕ → Caller} {new : Caller} {t other : ℕ} {progress : Progress}
    (reading : Function.update caller t new other = .reading progress) :
    other = t ∧ new = .reading progress ∨ other ≠ t ∧ caller other = .reading progress := by
  rw [Function.update_apply] at reading
  split at reading
  · next here => exact Or.inl ⟨here, reading⟩
  · next elsewhere => exact Or.inr ⟨elsewhere, reading⟩

theorem CallsSound.enter (sound : CallsSound ncpu (s, record)) (t : ℕ) (ip : NfsIpaddr) :
    CallsSound ncpu (observe serveStep recordStep (s, record)
      (.enter t ip : ServeEvent ncpu)) := by
  simp only [observe, serveStep, recordStep]
  split
  · next begins =>
      have present : (findipentry ip s.nfs.iptree).isSome := by
        simp only [Serving.begins] at begins
        split at begins
        · simp at begins
        · exact begins
      rcases Option.isSome_iff_exists.mp present with ⟨entry, found⟩
      constructor
      · exact ⟨sound.recorded.sorted, sound.recorded.sized, sound.recorded.counted,
          sound.recorded.fits, sound.recorded.results⟩
      · intro other progress reading
        rcases reading_update reading with ⟨rfl, -⟩ | ⟨-, before⟩
        · exact List.mem_cons_self
        · exact List.mem_cons_of_mem t (sound.holds other progress before)
      · intro other progress reading
        rcases reading_update reading with ⟨rfl, entered⟩ | ⟨elsewhere, before⟩
        · obtain rfl := Caller.reading.inj entered
          refine ⟨entry, entry.slot, found, ?_⟩
          simp only [Record.enter, Function.update_self]
          apply underway_enter
          · exact sound.recorded.counted ip entry found
          · intro numbers listed
            exact (sound.recorded.results ip numbers listed).2
        · simp only [Record.enter, Function.update_of_ne elsewhere]
          exact sound.underway other progress before
  · exact sound

theorem CallsSound.read (sound : CallsSound ncpu (s, record)) (t : ℕ) :
    CallsSound ncpu (observe serveStep recordStep (s, record)
      (.read t : ServeEvent ncpu)) := by
  simp only [observe, serveStep, recordStep]
  cases calling : s.caller t with
  | idle => exact sound
  | returned ip numbers => exact sound
  | reading progress =>
      rcases sound.underway t progress calling with ⟨entry, first, found, underway⟩
      simp only
      split
      · next unfinished =>
          constructor
          · exact sound.recorded
          · intro other advanced reading
            rcases reading_update reading with ⟨rfl, -⟩ | ⟨-, before⟩
            · exact sound.holds other progress calling
            · exact sound.holds other advanced before
          · intro other advanced reading
            rcases reading_update reading with ⟨rfl, moved⟩ | ⟨-, before⟩
            · obtain rfl := Caller.reading.inj moved
              rw [ip_advance]
              refine ⟨entry, first, found, ?_⟩
              exact underway.advance found unfinished
                (sound.recorded.counted progress.ip entry found)
                (sound.recorded.fits progress.ip)
            · exact sound.underway other advanced before
      · next all =>
          have returned := underway.returns all
          constructor
          · apply sound.recorded.finish
            · exact Option.isSome_iff_exists.mpr ⟨entry, found⟩
            · intro i inside
              exact (returned.2 i inside).2.1
          · intro other later reading
            rcases reading_update reading with ⟨-, ended⟩ | ⟨elsewhere, before⟩
            · simp at ended
            · exact (List.mem_erase_of_ne elsewhere).mpr (sound.holds other later before)
          · intro other later reading
            rcases reading_update reading with ⟨-, ended⟩ | ⟨-, before⟩
            · simp at ended
            · exact sound.underway other later before

theorem CallsSound.step {both : Serving × Record} (sound : CallsSound ncpu both)
    {event : ServeEvent ncpu} (fit : CountsFit both event) (clear : ClearServe both event)
    (slots : SlotServe both event) : CallsSound ncpu (observe serveStep recordStep both event) := by
  rcases both with ⟨s, record⟩
  cases event with
  | ioctl request => exact sound.ioctl clear
  | inccounter cpu ip typeidx bytes => exact sound.count fit slots
  | enter t ip => exact sound.enter t ip
  | read t => exact sound.read t

theorem CallsSound.bracketed {both : Serving × Record} (sound : CallsSound ncpu both)
    (event : ServeEvent ncpu) : BracketedReturn both event := by
  rintro t ip numbers ⟨rfl, ⟨progress, calling⟩, returned⟩
  rcases sound.underway t progress calling with ⟨entry, first, found, underway⟩
  simp only [serveStep, calling] at returned
  split at returned
  · simp at returned
  · next all =>
      simp only [Function.update_self, Caller.returned.injEq] at returned
      rcases returned with ⟨rfl, rfl⟩
      exact underway.returns all

end Steps

/-! ## Runs -/

theorem callsSound_init : CallsSound ncpu (.init, .init) := by
  apply callsSound_of_idle
  · constructor
    · exact List.Pairwise.nil
    · exact sized_init
    · intro ip entry found
      simp [Serving.init, NfsState.init, findipentry, find] at found
    · intro ip i
      exact Nat.two_pow_pos 64
    · intro ip numbers listed
      simp [Record.init] at listed
  · intro t progress reading
    simp [Serving.init] at reading

/-- Whatever the interleaving, a call returns for every type a number between the counts at its
beginning and at its end, and none below what an earlier call returned. -/
theorem returns_bracketed {events : List (ServeEvent ncpu)}
    (fit : Meets (observe serveStep recordStep) CountsFit (.init, .init) events)
    (clear : Meets (observe serveStep recordStep) ClearServe (.init, .init) events)
    (slots : Meets (observe serveStep recordStep) SlotServe (.init, .init) events) :
    Meets (observe serveStep recordStep) BracketedReturn (.init, .init) events := by
  apply @meets_of_invariant _ _ _ _ (CallsSound ncpu) _ _ _ _ _ callsSound_init
    (meets_and (meets_and fit clear) slots)
  · rintro both event sound ⟨⟨room, added⟩, inside⟩
    exact sound.step room added inside
  · intro both event sound _
    exact sound.bracketed event

/-- A packet is counted on each of two CPUs while a call reads the counters. -/
def packetsRun : List (ServeEvent 2) :=
  [.ioctl ⟨true, true, true, .init 1⟩, .ioctl ⟨true, true, true, .addip privateIp true .none⟩,
    .enter 0 privateIp, .inccounter 1 privateIp 0 60, .read 0, .inccounter 0 privateIp 0 60,
    .read 0, .read 0, .read 0]

theorem returns_bracketed_for_packetsRun :
    Meets (observe serveStep recordStep) BracketedReturn (.init, .init) packetsRun := by
  apply returns_bracketed
  · refine ⟨trivial, trivial, trivial, ?_, trivial, ?_, trivial, trivial, trivial, trivial⟩
    · intro _
      decide
    · intro _
      decide
  · refine ⟨?_, ?_, trivial, trivial, trivial, trivial, trivial, trivial, trivial, trivial⟩
    · intro ip created rebalance command
      cases command
    · intro ip created rebalance command
      cases command
      intro _ _ _
      exact clear_of_storedIp_eq rfl _
  · refine ⟨?_, ?_, trivial, ?_, trivial, ?_, trivial, trivial, trivial, trivial⟩
    · intro ip created rebalance command
      cases command
    · intro ip created rebalance command
      cases command
      decide
    · intro _
      decide
    · intro _
      decide

/-! ## An address in front of another one -/

/-- 2001:db9::. -/
def nextNetworkIp : NfsIpaddr :=
  ⟨6, Bytes.zero 3, ⟨[0x20, 0x01, 0x0d, 0xb9, 0, 0, 0, 0, 0, 0, 0, 0, 0, 0, 0, 0], rfl⟩⟩

/-- A packet to 2001:db8:: is counted and read. Then 2001:db8::1 is added, of which the same
bytes are stored, and the insertion brings its entry up to the root. -/
def shadowRun : List (ServeEvent 2) :=
  [.ioctl ⟨true, true, true, .init 1⟩, .ioctl ⟨true, true, true, .addip (docIp 0) true .none⟩,
    .ioctl ⟨true, true, true, .addip nextNetworkIp true .none⟩, .inccounter 1 (docIp 0) 0 60,
    .enter 0 (docIp 0), .read 0, .read 0, .read 0, .read 0,
    .ioctl ⟨true, true, true, .addip (docIp 1) true .rightLeft⟩,
    .enter 0 (docIp 0), .read 0, .read 0, .read 0]

/-- The second call returns nothing of what the first one did. -/
theorem shadowRun_not_bracketed :
    Meets (observe serveStep recordStep) CountsFit (.init, .init) (shadowRun ++ [.read 0]) ∧
      ¬Meets (observe serveStep recordStep) BracketedReturn (.init, .init)
        (shadowRun ++ [.read 0]) := by
  constructor
  · refine ⟨trivial, trivial, trivial, ?_, trivial, trivial, trivial, trivial, trivial, trivial,
      trivial, trivial, trivial, trivial, trivial, trivial⟩
    intro _
    decide
  · intro bracketed
    have last := ((meets_append _ shadowRun _).mp bracketed).2.1
    rcases last 0 (docIp 0) [0] ⟨rfl, ⟨_, rfl⟩, rfl⟩ with ⟨-, bounds⟩
    have above := (bounds 0 (by decide)).2.2 [1] (by decide)
    exact absurd above (by decide)

end Linguafranca.Nfstat
