import Linguafranca.Nfstat.AddressMap
import Linguafranca.Nfstat.Slots

/-!
# The counters are exact

Next to a run we keep, for one address and one type, the lengths of the IPv4 packets that
should have been counted since the address was last added (`tallyStep`). The sums over the
CPUs are the number and the total of that list modulo 2^64: a packet changes one slot of
one CPU of one entry, and that entry is the one the map has at the packet's local address.
-/

namespace Linguafranca.Nfstat

open SearchTree Run

variable {ncpu : ℕ}

/-! ## Summing over the CPUs -/

theorem sumCounter_succ (ncpu : ℕ) (entry : IpCounterEntry) (i : ℕ) :
    sumCounter (ncpu + 1) entry i =
      ⟨(sumCounter ncpu entry i).number + ((entry.counter ncpu).getD i ⟨0, 0⟩).number,
        (sumCounter ncpu entry i).bytes + ((entry.counter ncpu).getD i ⟨0, 0⟩).bytes⟩ := by
  simp [sumCounter, List.range_succ]

theorem sumCounter_congr {first second : IpCounterEntry} {i : ℕ}
    (same : ∀ cpu < ncpu, (first.counter cpu).getD i ⟨0, 0⟩ = (second.counter cpu).getD i ⟨0, 0⟩) :
    sumCounter ncpu first i = sumCounter ncpu second i := by
  induction ncpu with
  | zero => rfl
  | succ n ih =>
      rw [sumCounter_succ, sumCounter_succ, same n (Nat.lt_succ_self n), ih]
      intro cpu lower
      exact same cpu (Nat.lt_succ_of_lt lower)

theorem sumCounter_newIpEntry (ncpu : ℕ) (maxtype : UInt8) (ip : NfsIpaddr) (i : ℕ) :
    sumCounter ncpu (newIpEntry maxtype ip) i = ⟨0, 0⟩ := by
  induction ncpu with
  | zero => rfl
  | succ n ih =>
      rw [sumCounter_succ, ih]
      by_cases slot : i < maxtype.toNat
      · simp [newIpEntry, slot]
      · simp [newIpEntry, slot]

theorem getD_increment_of_ne {entry : IpCounterEntry} {cpu at_cpu i : ℕ} {typeidx : UInt8}
    {bytes : UInt64} (elsewhere : at_cpu ≠ cpu ∨ typeidx.toNat ≠ i) :
    ((entry.increment cpu typeidx bytes).counter at_cpu).getD i ⟨0, 0⟩ =
      (entry.counter at_cpu).getD i ⟨0, 0⟩ := by
  by_cases here : at_cpu = cpu
  · subst here
    have other : typeidx.toNat ≠ i := elsewhere.resolve_left fun differ => differ rfl
    simp [IpCounterEntry.increment, List.getD_eq_getElem?_getD, other]
  · simp [IpCounterEntry.increment, Function.update_of_ne here]

theorem getD_increment_self {entry : IpCounterEntry} {cpu : ℕ} {typeidx : UInt8} {bytes : UInt64}
    (slot : typeidx.toNat < (entry.counter cpu).length) :
    ((entry.increment cpu typeidx bytes).counter cpu).getD typeidx.toNat ⟨0, 0⟩ =
      ⟨((entry.counter cpu).getD typeidx.toNat ⟨0, 0⟩).number + 1,
        ((entry.counter cpu).getD typeidx.toNat ⟨0, 0⟩).bytes + bytes⟩ := by
  simp [IpCounterEntry.increment, List.getD_eq_getElem?_getD, slot]

theorem sumCounter_increment_of_ne {entry : IpCounterEntry} {cpu i : ℕ} {typeidx : UInt8}
    {bytes : UInt64} (other : typeidx.toNat ≠ i) :
    sumCounter ncpu (entry.increment cpu typeidx bytes) i = sumCounter ncpu entry i := by
  apply sumCounter_congr
  intro at_cpu _
  exact getD_increment_of_ne (Or.inr other)

theorem sumCounter_increment_self {entry : IpCounterEntry} {cpu : ℕ} {typeidx : UInt8}
    {bytes : UInt64} (possible : cpu < ncpu)
    (slot : typeidx.toNat < (entry.counter cpu).length) :
    sumCounter ncpu (entry.increment cpu typeidx bytes) typeidx.toNat =
      ⟨(sumCounter ncpu entry typeidx.toNat).number + 1,
        (sumCounter ncpu entry typeidx.toNat).bytes + bytes⟩ := by
  induction ncpu with
  | zero => exact absurd possible (Nat.not_lt_zero cpu)
  | succ n ih =>
      rw [sumCounter_succ, sumCounter_succ]
      rcases Nat.lt_succ_iff_lt_or_eq.mp possible with lower | rfl
      · rw [ih lower, getD_increment_of_ne (Or.inl (by omega))]
        simp only [NfsCounterVector.mk.injEq]
        exact ⟨by ac_rfl, by ac_rfl⟩
      · have before : sumCounter cpu (entry.increment cpu typeidx bytes) typeidx.toNat =
            sumCounter cpu entry typeidx.toNat := by
          apply sumCounter_congr
          intro at_cpu lower
          exact getD_increment_of_ne (Or.inl (by omega))
        rw [before, getD_increment_self slot]
        simp only [NfsCounterVector.mk.injEq]
        exact ⟨by ac_rfl, by ac_rfl⟩

/-! ## The tally -/

/-- The event is an `NFS_CMD_ADDIP` of the address that succeeds. -/
def NfsEvent.adds (state : NfsState) (ip : NfsIpaddr) (event : NfsEvent ncpu) : Bool :=
  match event.command state with
  | some (.addip added created rebalance) =>
      added = ip ∧ (addipentry state.maxtype added created rebalance state.iptree).1
  | _ => false

/-- The length of an IPv4 packet with that local address for which `get_typeidx` returns the
type. -/
def NfsEvent.counts (state : NfsState) (ip : NfsIpaddr) (i : ℕ) : NfsEvent ncpu → Option UInt32
  | .packet _ skb hasIn hasOut =>
      match hookfnRule skb hasIn hasOut with
      | none => none
      | some key =>
          if key.lip = ip ∧ getTypeidx state.ruletree key = i then some skb.len else none
  | .packet6 .. => none
  | .ioctl _ => none

/-- The tally after an event: adding the address empties it, a packet of the address and type enters
its length. -/
def tallyStep (ip : NfsIpaddr) (i : ℕ) (state : NfsState) (event : NfsEvent ncpu)
    (lengths : List UInt32) : List UInt32 :=
  if event.adds state ip then []
  else match event.counts state ip i with
    | none => lengths
    | some len => len :: lengths

/-- The lengths of the packets counted for the address and type since it was last added. -/
def tally (ip : NfsIpaddr) (i : ℕ) (events : List (NfsEvent ncpu)) : List UInt32 :=
  (run (observe nfsStep (tallyStep ip i)) (.init, []) events).2

/-- Number and total modulo 2^64. -/
def totals (lengths : List UInt32) : NfsCounterVector :=
  ⟨UInt64.ofNat lengths.length, UInt64.ofNat (lengths.map UInt32.toNat).sum⟩

/-- Added addresses are canonical and added rules have a type below the number of types. -/
def Countable (state : NfsState) (event : NfsEvent ncpu) : Prop :=
  (∀ ip created rebalance, event.command state = some (.addip ip created rebalance) →
      ip.WellFormed ∧ ip.len = 4) ∧
    ∀ rule created rebalance, event.command state = some (.addrule rule created rebalance) →
      rule.typeidx < state.maxtype

variable {state : NfsState} {event : NfsEvent ncpu} {ip : NfsIpaddr} {i : ℕ}

theorem storedIp_of_canonical (wellFormed : ip.WellFormed) (ipv4 : ip.len = 4) :
    storedIp ip = ip := by
  apply storedIp_eq_self_iff.mpr
  refine ⟨wellFormed.padding, ?_⟩
  rw [ipv4]
  exact wellFormed.unused ipv4

theorem Countable.clear (countable : Countable state event) : ClearEvent state event := by
  intro ip created rebalance command _ _ _
  rcases countable.1 ip created rebalance command with ⟨wellFormed, ipv4⟩
  exact clear_of_storedIp_eq (storedIp_of_canonical wellFormed ipv4) state.iptree

theorem totals_cons (len : UInt32) (lengths : List UInt32) :
    totals (len :: lengths) =
      ⟨(totals lengths).number + 1, (totals lengths).bytes + len.toUInt64⟩ := by
  have bytes : len.toUInt64 = UInt64.ofNat len.toNat := by simp
  simp only [totals, List.length_cons, List.map_cons, List.sum_cons, UInt64.ofNat_add, bytes]
  rw [add_comm (UInt64.ofNat len.toNat)]
  rfl

theorem toNat_getTypeidx {ruletree : BinaryTree NfsRule} {key : NfsRule}
    (classified : 0 ≤ getTypeidx ruletree key) :
    ((UInt8.ofNat (getTypeidx ruletree key).toNat).toNat : Int) = getTypeidx ruletree key := by
  cases found : findnfsrule key ruletree with
  | none => simp [getTypeidx, found] at classified
  | some rule => simp [getTypeidx_eq_some found]

theorem counts_of_command {cmd : NfsCmd} (command : event.command state = some cmd) :
    event.counts state ip i = none := by
  cases event with
  | ioctl request => rfl
  | packet cpu skb hasIn hasOut => simp [NfsEvent.command] at command
  | packet6 cpu skb hasIn hasOut => rfl

theorem counts_of_unclassified (unclassified : event.classified = none) :
    event.counts state ip i = none := by
  cases event with
  | ioctl request => rfl
  | packet cpu skb hasIn hasOut =>
      have missing : hookfnRule skb hasIn hasOut = none := by
        simpa [NfsEvent.classified] using unclassified
      simp [NfsEvent.counts, missing]
  | packet6 cpu skb hasIn hasOut => rfl

/-- An IPv6 packet has no IPv4 address. -/
theorem counts_of_classifies {cpu : Fin ncpu} {key : NfsRule} {len : UInt32} (ipv4 : ip.len = 4)
    (classifies : event.Classifies cpu key len) :
    event.counts state ip i =
      if key.lip = ip ∧ getTypeidx state.ruletree key = i then some len else none := by
  cases classifies using NfsEvent.Classifies.elim with
  | packet cpu skb hasIn hasOut key built => simp [NfsEvent.counts, built]
  | packet6 cpu skb hasIn hasOut key built =>
      rcases hookfn6Rule_eq_some built with ⟨hdr, -, -, lip, -, -, -⟩
      have differ : key.lip ≠ ip := by
        rintro rfl
        rw [lip] at ipv4
        simp [hookAddr] at ipv4
      simp [NfsEvent.counts, differ]

/-- The tree is sorted and holds IPv4 addresses with all their slots, and the sums are those of the
tally. -/
structure Exact (ncpu : ℕ) (ip : NfsIpaddr) (i : ℕ) (both : NfsState × List UInt32) : Prop where
  sorted : Sorted entryKey (inorder both.1.iptree)
  sized : Sized both.1
  ipv4 : ∀ entry ∈ inorder both.1.iptree, entry.ip.len = 4
  sums : i < both.1.maxtype.toNat → ∀ entry, both.1.addresses ip = some entry →
    sumCounter ncpu entry i = totals both.2

theorem ipv4_nfsStep (ipv4 : ∀ entry ∈ inorder state.iptree, entry.ip.len = 4)
    (countable : Countable state event) :
    ∀ entry ∈ inorder (nfsStep state event).iptree, entry.ip.len = 4 := by
  intro entry stored
  rcases mem_iptree_nfsStep stored with
    old | ⟨added, created, rebalance, command, rfl⟩ | ⟨_, _, _, _, old, -, -, oldStored, -, rfl⟩
  · exact ipv4 entry old
  · exact (countable.1 added created rebalance command).2
  · exact ipv4 old oldStored

variable {lengths : List UInt32}

theorem Exact.sums_of_unchanged (precise : Exact ncpu ip i (state, lengths))
    {entry : IpCounterEntry} (slot : i < (nfsStep state event).maxtype.toNat)
    (found : state.addresses ip = some entry) : sumCounter ncpu entry i = totals lengths := by
  have set := precise.sized.maxtype_ne_zero (mem_of_find found)
  rw [maxtype_nfsStep state event set] at slot
  exact precise.sums slot entry found

theorem Exact.sums_of_command (precise : Exact ncpu ip i (state, lengths)) {cmd : NfsCmd}
    (countable : Countable state event) (command : event.command state = some cmd)
    {entry : IpCounterEntry} (slot : i < (nfsStep state event).maxtype.toNat)
    (found : cmd.onAddresses state state.addresses ip = some entry) :
    sumCounter ncpu entry i = totals (tallyStep ip i state event lengths) := by
  simp only [tallyStep, counts_of_command command, NfsEvent.adds, command]
  cases cmd with
  | addip added created rebalance =>
      rcases countable.1 added created rebalance command with ⟨wellFormed, ipv4⟩
      simp only [NfsCmd.onAddresses, storedIp_of_canonical wellFormed ipv4] at found
      cases accepted : (addipentry state.maxtype added created rebalance state.iptree).1 with
      | false =>
          simp only [accepted, Bool.false_eq_true, if_false] at found
          simpa [accepted] using precise.sums_of_unchanged slot found
      | true =>
          simp only [accepted, if_true, Function.update_apply] at found
          by_cases here : added = ip
          · subst here
            rw [if_pos rfl] at found
            obtain rfl := Option.some.inj found
            have zero := sumCounter_newIpEntry ncpu state.maxtype added i
            simpa [accepted, totals] using zero
          · rw [if_neg (Ne.symm here)] at found
            simpa [here] using precise.sums_of_unchanged slot found
  | rmvip removed rebalance =>
      simp only [NfsCmd.onAddresses, Function.update_apply] at found
      split at found
      · simp at found
      · simpa using precise.sums_of_unchanged slot found
  | _ => simpa using precise.sums_of_unchanged slot found

theorem Exact.sums_of_packet (precise : Exact ncpu ip i (state, lengths)) {cpu : Fin ncpu}
    {key : NfsRule} {len : UInt32} (classifies : event.Classifies cpu key len)
    {entry : IpCounterEntry} (slot : i < (nfsStep state event).maxtype.toNat)
    (found : countOnAddresses state state.addresses cpu key len ip = some entry) :
    sumCounter ncpu entry i = totals (tallyStep ip i state event lengths) := by
  have unasked : event.adds state ip = false := by
    simp [NfsEvent.adds, command_of_classifies classifies state]
  have unchanged (found : state.addresses ip = some entry)
      (elsewhere : ¬(key.lip = ip ∧ getTypeidx state.ruletree key = i)) :
      sumCounter ncpu entry i = totals (tallyStep ip i state event lengths) := by
    have ipv4 : ip.len = 4 := by
      have stored := precise.ipv4 entry (mem_of_find found)
      rwa [ip_of_steerIp_eq (dir_of_find found)] at stored
    simp only [tallyStep, unasked, counts_of_classifies ipv4 classifies, if_neg elsewhere]
    exact precise.sums_of_unchanged slot found
  simp only [countOnAddresses] at found
  split at found
  · next classified =>
      rw [Function.update_apply] at found
      split at found
      · next here =>
          subst here
          rcases Option.map_eq_some_iff.mp found with ⟨old, stored, rfl⟩
          have member := mem_of_find stored
          have ipv4 : key.lip.len = 4 := by
            have kept := precise.ipv4 old member
            rwa [ip_of_steerIp_eq (dir_of_find stored)] at kept
          have before := precise.sums_of_unchanged slot stored
          have idx := toNat_getTypeidx classified
          simp only [tallyStep, unasked, counts_of_classifies ipv4 classifies, true_and,
            Bool.false_eq_true, if_false]
          by_cases same : getTypeidx state.ruletree key = i
          · have here : (UInt8.ofNat (getTypeidx state.ruletree key).toNat).toNat = i := by
              omega
            have inside : i < (old.counter cpu).length := by
              rw [precise.sized.slots old member cpu]
              rwa [maxtype_nfsStep state event (precise.sized.maxtype_ne_zero member)] at slot
            have counted := @sumCounter_increment_self ncpu old cpu
              (UInt8.ofNat (getTypeidx state.ruletree key).toNat) len.toUInt64 cpu.isLt
              (by rwa [here])
            rw [here, before, ← totals_cons] at counted
            simpa [same] using counted
          · simp only [if_neg same]
            rw [sumCounter_increment_of_ne (by omega)]
            exact before
      · next elsewhere => exact unchanged found fun both => elsewhere both.1.symm
  · next missed =>
      apply unchanged found
      rintro ⟨-, counted⟩
      omega

theorem Exact.step (precise : Exact ncpu ip i (state, lengths))
    (countable : Countable state event) :
    Exact ncpu ip i (observe nfsStep (tallyStep ip i) (state, lengths) event) where
  sorted := sorted_nfsStep state event precise.sorted countable.clear
  sized := sized_nfsStep precise.sized event
  ipv4 := ipv4_nfsStep precise.ipv4 countable
  sums := by
    intro slot entry found
    simp only [observe, addresses_nfsStep precise.sorted countable.clear,
      NfsEvent.onAddresses] at slot found ⊢
    cases command : event.command state with
    | some cmd =>
        rw [command] at found
        exact precise.sums_of_command countable command slot found
    | none =>
        rw [command] at found
        cases classified : event.classified with
        | none =>
            rw [classified] at found
            simp only [tallyStep, NfsEvent.adds, command, counts_of_unclassified classified]
            exact precise.sums_of_unchanged slot found
        | some packet =>
            rw [classified] at found
            exact precise.sums_of_packet classified slot found

theorem exact_run (ip : NfsIpaddr) (i : ℕ) {events : List (NfsEvent ncpu)}
    (countable : Meets nfsStep Countable .init events) :
    Exact ncpu ip i (run (observe nfsStep (tallyStep ip i)) (.init, []) events) := by
  refine invariant ?_ ?_ ((meets_observe_iff []).mpr countable)
  · rintro ⟨state, lengths⟩ event precise allowed
    exact precise.step allowed
  · constructor
    · exact List.Pairwise.nil
    · exact sized_init
    · intro entry stored
      simp [NfsState.init] at stored
    · intro _ entry found
      simp [NfsState.addresses, NfsState.init, findipentry, find] at found

/-- A packet leaves every slot of another address or another type as it was. -/
theorem slots_of_packet (sorted : Sorted entryKey (inorder state.iptree)) {stored : IpCounterEntry}
    (present : stored ∈ inorder state.iptree) {cpu : Fin ncpu} {key : NfsRule} {len : UInt32}
    (classifies : event.Classifies cpu key len)
    (other : key.lip ≠ stored.ip ∨ getTypeidx state.ruletree key ≠ i) :
    ∃ entry, findipentry stored.ip (nfsStep state event).iptree = some entry ∧
      ∀ at_cpu, (entry.counter at_cpu).getD i ⟨0, 0⟩ = (stored.counter at_cpu).getD i ⟨0, 0⟩ := by
  have clear : ClearEvent state event := by
    intro ip created rebalance command
    simp [command_of_classifies classifies state] at command
  have found : state.addresses stored.ip = some stored :=
    (findipentry_eq_some_iff sorted).mpr ⟨present, rfl⟩
  have onMap := congrFun (addresses_nfsStep sorted clear) stored.ip
  simp only [NfsEvent.onAddresses, command_of_classifies classifies state,
    show event.classified = _ from classifies, countOnAddresses] at onMap
  change findipentry stored.ip (nfsStep state event).iptree = _ at onMap
  by_cases classified : 0 ≤ getTypeidx state.ruletree key
  · by_cases here : key.lip = stored.ip
    · have differ := other.resolve_left fun elsewhere => elsewhere here
      have idx := toNat_getTypeidx classified
      rw [if_pos classified, here, Function.update_self, found] at onMap
      refine ⟨_, onMap, ?_⟩
      intro at_cpu
      exact getD_increment_of_ne (Or.inr (by omega))
    · rw [if_pos classified, Function.update_of_ne (Ne.symm here), found] at onMap
      exact ⟨stored, onMap, fun _ => rfl⟩
  · rw [if_neg classified, found] at onMap
    exact ⟨stored, onMap, fun _ => rfl⟩

/-- What is reported for a stored address is the number and the bytes of the packets counted
since it was added, and a packet changes no other slot. -/
theorem nfsGetcounterPerip_exact (events : List (NfsEvent ncpu))
    (countable : Meets nfsStep Countable .init events) {stored : IpCounterEntry}
    (present : stored ∈ inorder (run nfsStep .init events).iptree) {len : ℕ}
    (room : 16 * (run nfsStep .init events).maxtype.toNat ≤ len) :
    nfsGetcounterPerip ncpu (run nfsStep .init events).maxtype (run nfsStep .init events).iptree
        stored.ip len true true =
      .done ((List.range (run nfsStep .init events).maxtype.toNat).map fun i =>
        totals (tally stored.ip i events)) true ∧
    ∀ (event : NfsEvent ncpu) (cpu : Fin ncpu) (key : NfsRule) (bytes : UInt32) (i : ℕ),
      event.Classifies cpu key bytes →
        key.lip ≠ stored.ip ∨ getTypeidx (run nfsStep .init events).ruletree key ≠ i →
          ∃ entry,
            findipentry stored.ip (nfsStep (run nfsStep .init events) event).iptree = some entry ∧
              ∀ at_cpu, (entry.counter at_cpu).getD i ⟨0, 0⟩ =
                (stored.counter at_cpu).getD i ⟨0, 0⟩ := by
  have precise (i : ℕ) := exact_run stored.ip i countable
  simp only [tally]
  have sorted := (precise 0).sorted
  rw [run_observe_fst] at sorted
  constructor
  · have found := (findipentry_eq_some_iff sorted).mpr ⟨present, rfl⟩
    simp only [nfsGetcounterPerip, not_lt.mpr room, if_false, if_true, found,
      GetcounterResult.done.injEq, and_true]
    apply List.map_congr_left
    intro i inside
    have sums := (precise i).sums
    rw [run_observe_fst] at sums
    exact sums (List.mem_range.mp inside) stored found
  · intro event cpu key bytes i classifies other
    exact slots_of_packet sorted present classifies other

theorem nfsGetcounterPerip_exact_for_slotRun :
    nfsGetcounterPerip 1 2 (run nfsStep .init (slotRun 1 ++ [slotPacket])).iptree privateIp 32
      true true = .done [⟨0, 0⟩, ⟨1, 60⟩] true := by
  have canonical : privateIp.WellFormed ∧ privateIp.len = 4 :=
    ⟨wellFormed_hookAddr_four _, rfl⟩
  have countable : Meets nfsStep Countable .init (slotRun 1 ++ [slotPacket]) := by
    refine ⟨?_, ?_, ?_, ?_, trivial⟩
    all_goals
      constructor
      · intro ip created rebalance command
        cases command <;> exact canonical
      · intro rule created rebalance command
        cases command <;> decide
  have present : (newIpEntry 2 privateIp).increment 0 1 60 ∈
      inorder (run nfsStep .init (slotRun 1 ++ [slotPacket])).iptree := by
    apply @mem_of_find _ (steerIp privateIp)
    rfl
  exact (nfsGetcounterPerip_exact (slotRun 1 ++ [slotPacket]) countable present le_rfl).1

/-- An address has no entry right after its `NFS_CMD_RMVIP`. -/
theorem addresses_removed (sorted : Sorted entryKey (inorder state.iptree))
    (set : state.maxtype ≠ 0) (removal : Rebalance IpCounterEntry) :
    (nfsStep state (.request (.rmvip ip removal) : NfsEvent ncpu)).addresses ip = none := by
  have clear : ClearEvent state (.request (.rmvip ip removal) : NfsEvent ncpu) := by
    intro added created rebalance command
    simp [set] at command
  rw [addresses_nfsStep sorted clear]
  simp [NfsEvent.onAddresses, NfsCmd.onAddresses, set]

/-- With memory, a canonical address that is not stored gets an entry of zeros. -/
theorem addresses_added (sorted : Sorted entryKey (inorder state.iptree))
    (set : state.maxtype ≠ 0) (wellFormed : ip.WellFormed) (ipv4 : ip.len = 4)
    (absent : state.addresses ip = none) (addition : Rebalance IpCounterEntry) :
    (nfsStep state (.request (.addip ip true addition) : NfsEvent ncpu)).addresses ip =
      some (newIpEntry state.maxtype ip) := by
  have canonical := storedIp_of_canonical wellFormed ipv4
  have clear : ClearEvent state (.request (.addip ip true addition) : NfsEvent ncpu) := by
    intro added created rebalance command _ _ _
    simp only [command_request, set, and_false, if_false, Option.some.injEq,
      NfsCmd.addip.injEq] at command
    rcases command with ⟨rfl, -, -⟩
    exact clear_of_storedIp_eq canonical state.iptree
  have accepted : (addipentry state.maxtype ip true addition state.iptree).1 = true := by
    have absent' : findipentry ip state.iptree = none := absent
    rw [addipentry_fst state.maxtype (by simp [ipv4]) addition, absent']
    rfl
  rw [addresses_nfsStep sorted clear]
  simp [NfsEvent.onAddresses, NfsCmd.onAddresses, set, accepted, canonical]

/-- An address that is removed and added again is counted from zero. -/
theorem nfsGetcounterPerip_of_readded {events : List (NfsEvent ncpu)}
    (countable : Meets nfsStep Countable .init events)
    (set : (run nfsStep .init events).maxtype ≠ 0) (wellFormed : ip.WellFormed) (ipv4 : ip.len = 4)
    (removal addition : Rebalance IpCounterEntry) {len : ℕ}
    (room : 16 * (run nfsStep .init events).maxtype.toNat ≤ len) :
    let state := run nfsStep .init
      (events ++ [.request (.rmvip ip removal), .request (.addip ip true addition)])
    nfsGetcounterPerip ncpu state.maxtype state.iptree ip len true true =
      .done (List.replicate state.maxtype.toNat ⟨0, 0⟩) true := by
  intro state
  have sorted := (exact_run ip 0 countable).sorted
  rw [run_observe_fst] at sorted
  let before := run nfsStep .init events
  let remove : NfsEvent ncpu := .request (.rmvip ip removal)
  let add : NfsEvent ncpu := .request (.addip ip true addition)
  have after : state = nfsStep (nfsStep before remove) add := by
    simp [state, before, remove, add, run_append]
  have maxtypeRemoved := maxtype_nfsStep before remove set
  have maxtypeAdded := maxtype_nfsStep (nfsStep before remove) add (by rwa [maxtypeRemoved])
  have kept : state.maxtype = before.maxtype := by
    rw [after, maxtypeAdded, maxtypeRemoved]
  have absent : (nfsStep before remove).addresses ip = none :=
    addresses_removed sorted set removal
  have sortedRemoved : Sorted entryKey (inorder (nfsStep before remove).iptree) := by
    apply sorted_nfsStep before remove sorted
    intro added created rebalance command
    simp [remove, before, set] at command
  have found : findipentry ip state.iptree = some (newIpEntry before.maxtype ip) := by
    rw [after, ← maxtypeRemoved]
    exact addresses_added sortedRemoved (by rwa [maxtypeRemoved]) wellFormed ipv4 absent addition
  have zeros : (List.range before.maxtype.toNat).map
      (sumCounter ncpu (newIpEntry before.maxtype ip)) =
        List.replicate before.maxtype.toNat ⟨0, 0⟩ := by
    apply List.eq_replicate_iff.mpr
    refine ⟨by simp, ?_⟩
    intro vector member
    rcases List.mem_map.mp member with ⟨i, -, rfl⟩
    exact sumCounter_newIpEntry ncpu before.maxtype ip i
  have enough : ¬len < 16 * before.maxtype.toNat := not_lt.mpr room
  simp only [nfsGetcounterPerip, kept, enough, if_false, if_true, found, zeros]

end Linguafranca.Nfstat
