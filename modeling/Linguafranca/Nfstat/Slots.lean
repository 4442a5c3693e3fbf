import Linguafranca.Nfstat.Step

/-!
# Counter slots and type indices

Every entry has one slot for each rule type, on every CPU and in every reachable state,
since `NFS_CMD_INIT` sets the number of types once and before any entry. The type index
comes from a stored rule, and `addnfsrule` stores whatever index it is given: counting
stays inside the slots as long as the indices added are below the number of types.
-/

namespace Linguafranca.Nfstat

open SearchTree Run

variable {ncpu : ℕ} {state : NfsState} {event : NfsEvent ncpu}

/-- There are no entries before the number of types is set, and afterwards every entry has a slot
for each type. -/
structure Sized (state : NfsState) : Prop where
  unset : state.maxtype = 0 → inorder state.iptree = []
  slots : ∀ entry ∈ inorder state.iptree, ∀ cpu,
    (entry.counter cpu).length = state.maxtype.toNat

theorem Sized.maxtype_ne_zero (sized : Sized state) {entry : IpCounterEntry}
    (stored : entry ∈ inorder state.iptree) : state.maxtype ≠ 0 := by
  intro unset
  simp [sized.unset unset] at stored

theorem length_increment (entry : IpCounterEntry) (cpu at_cpu : ℕ) (typeidx : UInt8)
    (bytes : UInt64) :
    ((entry.increment cpu typeidx bytes).counter at_cpu).length =
      (entry.counter at_cpu).length := by
  by_cases same : at_cpu = cpu
  · subst at_cpu
    simp [IpCounterEntry.increment]
  · simp [IpCounterEntry.increment, Function.update_of_ne same]

theorem sized_init : Sized .init where
  unset := fun _ => rfl
  slots := by
    intro entry stored
    simp [NfsState.init] at stored

theorem sized_nfsStep (sized : Sized state) (event : NfsEvent ncpu) :
    Sized (nfsStep state event) := by
  have settled : ∀ entry ∈ inorder (nfsStep state event).iptree, state.maxtype ≠ 0 := by
    intro entry stored
    rcases mem_iptree_nfsStep stored with
      old | ⟨ip, created, rebalance, command, -⟩ | ⟨_, _, _, _, old, -, -, oldStored, -, -⟩
    · exact sized.maxtype_ne_zero old
    · exact maxtype_ne_zero_of_command command rfl
    · exact sized.maxtype_ne_zero oldStored
  constructor
  · intro unset
    apply List.eq_nil_iff_forall_not_mem.mpr
    intro entry stored
    have set := settled entry stored
    rw [maxtype_nfsStep state event set] at unset
    exact set unset
  · intro entry stored cpu
    rw [maxtype_nfsStep state event (settled entry stored)]
    rcases mem_iptree_nfsStep stored with
      old | ⟨ip, created, rebalance, -, rfl⟩ | ⟨_, _, _, _, old, -, -, oldStored, -, rfl⟩
    · exact sized.slots entry old cpu
    · exact List.length_replicate
    · rw [length_increment]
      exact sized.slots old oldStored cpu

/-- Every rule has a type for which there is a slot. -/
def TypesInRange (state : NfsState) : Prop :=
  ∀ rule ∈ inorder state.ruletree, rule.typeidx < state.maxtype

/-- Added addresses fit the sixteen bytes they are copied to, and added rules have a type
below the number of types. -/
def InRange (state : NfsState) (event : NfsEvent ncpu) : Prop :=
  (∀ ip created rebalance, event.command state = some (.addip ip created rebalance) →
      ip.len ≤ 16) ∧
    ∀ rule created rebalance, event.command state = some (.addrule rule created rebalance) →
      rule.typeidx < state.maxtype

theorem typesInRange_nfsStep (inRange : TypesInRange state) (allowed : InRange state event) :
    TypesInRange (nfsStep state event) := by
  intro rule stored
  have below : rule.typeidx < state.maxtype := by
    rcases mem_ruletree_nfsStep stored with old | ⟨created, rebalance, command⟩
    · exact inRange rule old
    · exact allowed.2 rule created rebalance command
  have set : state.maxtype ≠ 0 := by
    intro unset
    rw [unset] at below
    exact UInt8.not_lt_zero below
  rwa [maxtype_nfsStep state event set]

/-- Whenever a packet is counted at an entry, its type has a slot there. -/
def CountsInRange (ncpu : ℕ) (state : NfsState) : Prop :=
  ∀ (event : NfsEvent ncpu) (cpu : Fin ncpu) (key : NfsRule) (len : UInt32)
    (entry : IpCounterEntry), event.Classifies cpu key len → 0 ≤ getTypeidx state.ruletree key →
      findipentry key.lip state.iptree = some entry →
        getTypeidx state.ruletree key < (entry.counter cpu).length ∧
          (entry.counter cpu).length = state.maxtype.toNat

theorem Sized.countsInRange (sized : Sized state) (inRange : TypesInRange state) :
    CountsInRange ncpu state := by
  intro event cpu key len entry _ counted found
  have slots := sized.slots entry (mem_of_find found) cpu
  refine ⟨?_, slots⟩
  cases match? : findnfsrule key state.ruletree with
  | none => simp [getTypeidx, match?] at counted
  | some rule =>
      have below := inRange rule (mem_of_find match?)
      rw [getTypeidx_eq_some match?, slots]
      exact_mod_cast UInt8.lt_iff_toNat_lt.mp below

/-- If every added rule has a type below the number of types, no packet is ever counted outside the
slots of an entry. -/
theorem countsInRange_of_inRange (events : List (NfsEvent ncpu))
    (allowed : Meets nfsStep InRange .init events) :
    CountsInRange ncpu (run nfsStep .init events) := by
  have both : Sized (run nfsStep .init events) ∧ TypesInRange (run nfsStep .init events) := by
    apply @invariant _ _ _ _ (fun state => Sized state ∧ TypesInRange state) ?_ _ _ ?_ allowed
    · rintro state event ⟨sized, inRange⟩ permitted
      exact ⟨sized_nfsStep sized event, typesInRange_nfsStep inRange permitted⟩
    · refine ⟨sized_init, ?_⟩
      intro rule stored
      simp [NfsState.init] at stored
  exact both.1.countsInRange both.2

/-- 10.0.0.1. -/
def privateIp : NfsIpaddr :=
  hookAddr 4 (⟨[10, 0, 0, 1], rfl⟩ : Bytes 4)

/-- A UDP packet to it, and the module set up to count it under a type. -/
def slotPacket : NfsEvent 1 :=
  .packet 0 ⟨some ⟨4, ipprotoUdp, ⟨[10, 0, 0, 9], rfl⟩, ⟨[10, 0, 0, 1], rfl⟩⟩, some ⟨1, 1⟩, 60⟩
    true false

/-- The key of a datagram of the private address. -/
def slotKey : NfsRule :=
  { lip := privateIp
    rip := hookAddr 4 (⟨[10, 0, 0, 9], rfl⟩ : Bytes 4)
    lport := 256
    rport := 256
    protocol := ipprotoUdp
    dir := 1
    typeidx := 0 }

/-- Two types, the private address, and a rule for UDP with one of the types. -/
def slotRun (typeidx : UInt8) : List (NfsEvent 1) :=
  [.request (.init 2), .request (.addip privateIp true .none),
    .request (.addrule
      { lip := NfsIpaddr.zero
        rip := NfsIpaddr.zero
        lport := 0
        rport := 0
        protocol := ipprotoUdp
        dir := nfsAll
        typeidx := typeidx } true .none)]

theorem countsInRange_for_slotRun :
    getTypeidx (run nfsStep .init (slotRun 1)).ruletree slotKey <
        ((newIpEntry 2 privateIp).counter 0).length ∧
      ((newIpEntry 2 privateIp).counter 0).length = 2 := by
  have allowed : Meets nfsStep InRange .init (slotRun 1) := by
    refine ⟨?_, ?_, ?_, trivial⟩
    all_goals
      constructor
      · intro ip created rebalance command
        cases command <;> decide
      · intro rule created rebalance command
        cases command <;> decide
  exact countsInRange_of_inRange (slotRun 1) allowed slotPacket 0 slotKey 60
    (newIpEntry 2 privateIp) (.packet rfl) (by decide) rfl

/-- A rule with index 5 is counted at an entry with two slots. -/
theorem countsInRange_fails_for_slotRun :
    ¬∀ (ncpu : ℕ) (events : List (NfsEvent ncpu)),
      CountsInRange ncpu (run nfsStep .init events) := by
  intro inRange
  have counted := inRange 1 (slotRun 5) slotPacket 0 slotKey 60
    (newIpEntry 2 privateIp) (.packet rfl) (by decide) (by rfl)
  revert counted
  decide

end Linguafranca.Nfstat
