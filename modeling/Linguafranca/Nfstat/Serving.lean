import Linguafranca.Nfstat.AddrBytes
import Linguafranca.Nfstat.AddressMap
import Linguafranca.Nfstat.Slots

/-!
# Which addresses are served

An address that was added should be found, reported, removed and counted under the very
structure it was added with. That is what a map keyed by the address as passed would do
(`heldStep`). The code keys an entry by the copy that `addipentry` makes, of which the tag
decides the length: all four bytes of an IPv4 address, but six of the sixteen bytes of an
IPv6 address.

No request is refused for a tag above 16 or for a type index without a slot; `addipentry` then
copies over the end of the entry, and `inccounter` counts behind its vectors. Runs with such
requests are left out (`Permitted`).
-/

namespace Linguafranca.Nfstat

open SearchTree Run

variable {ncpu : ℕ}

/-- A command as it should act on the addresses held. -/
def NfsCmd.onHeld (state : NfsState) (held : AddressMap) : NfsCmd → AddressMap
  | .addip ip created rebalance =>
      if (addipentry state.maxtype ip created rebalance state.iptree).1 then
        Function.update held ip (some (newIpEntry state.maxtype ip))
      else held
  | .rmvip ip _ => Function.update held ip none
  | _ => held

/-- The entries held for the addresses passed, as the steps should leave them. -/
def heldStep (state : NfsState) (event : NfsEvent ncpu) (held : AddressMap) : AddressMap :=
  match event.command state, event.classified with
  | some cmd, _ => cmd.onHeld state held
  | none, some (cpu, key, len) => countOnAddresses state held cpu key len
  | none, none => held

/-- The four uses of an address find the entry, and a packet is counted in a slot of it. -/
structure Served (ncpu : ℕ) (state : NfsState) (ip : NfsIpaddr) (entry : IpCounterEntry) :
    Prop where
  found : findipentry ip state.iptree = some entry
  reported : ∀ len, 16 * state.maxtype.toNat ≤ len →
    nfsGetcounterPerip ncpu state.maxtype state.iptree ip len true true =
      .done ((List.range state.maxtype.toNat).map (sumCounter ncpu entry)) true
  removed : ∀ rebalance, (rmvipentry ip rebalance state.iptree).1 = true ∧
    ∀ other, findipentry other (rmvipentry ip rebalance state.iptree).2 =
      if other = ip then none else findipentry other state.iptree
  counted : ∀ (event : NfsEvent ncpu) cpu key len, event.Classifies cpu key len → key.lip = ip →
    0 ≤ getTypeidx state.ruletree key →
      getTypeidx state.ruletree key < (entry.counter cpu).length ∧
        findipentry ip (nfsStep state event).iptree =
          some (entry.increment cpu (UInt8.ofNat (getTypeidx state.ruletree key).toNat)
            len.toUInt64)

/-- Every well-formed address that is held is served. -/
def Serves (ncpu : ℕ) (both : NfsState × AddressMap) : Prop :=
  ∀ ip entry, ip.WellFormed → both.2 ip = some entry → Served ncpu both.1 ip entry

/-- The bytes that the copy leaves out are zero. -/
def ZeroTail (ip : NfsIpaddr) : Prop :=
  ∀ byte ∈ ip.addr.1.drop ip.len.toNat, byte = 0

/-- A new well-formed address has nothing in the bytes that the copy leaves out. -/
def ZeroTails (state : NfsState) (event : NfsEvent ncpu) : Prop :=
  ∀ ip created rebalance, event.command state = some (.addip ip created rebalance) →
    ip.WellFormed → created → (∀ stored ∈ inorder state.iptree, stored.ip ≠ ip) → ZeroTail ip

/-- An address of another kind is clear. -/
def OthersClear (state : NfsState) (event : NfsEvent ncpu) : Prop :=
  ∀ ip created rebalance, event.command state = some (.addip ip created rebalance) →
    ¬ip.WellFormed → ClearCall state.iptree (.add ip created rebalance)

/-- The addresses and types that are added fit the arrays they are used with, and an address
of another kind is clear. -/
structure Permitted (state : NfsState) (event : NfsEvent ncpu) : Prop where
  short : AddsShort state event
  inRange : InRange state event
  others : OthersClear state event

/-- What the counting of packets relies on. -/
structure Orderly (state : NfsState) : Prop where
  sorted : Sorted entryKey (inorder state.iptree)
  sized : Sized state
  inRange : TypesInRange state

variable {state : NfsState} {event : NfsEvent ncpu} {ip : NfsIpaddr}

theorem orderly_init : Orderly .init where
  sorted := List.Pairwise.nil
  sized := sized_init
  inRange := by
    intro rule stored
    simp [NfsState.init] at stored

theorem orderly_nfsStep (orderly : Orderly state) (permitted : Permitted state event)
    (clear : ClearEvent state event) : Orderly (nfsStep state event) where
  sorted := sorted_nfsStep state event orderly.sorted clear
  sized := sized_nfsStep orderly.sized event
  inRange := typesInRange_nfsStep orderly.inRange permitted.inRange

theorem served_of_found {entry : IpCounterEntry} (orderly : Orderly state)
    (found : findipentry ip state.iptree = some entry) : Served ncpu state ip entry where
  found := found
  reported := by
    intro len room
    simp [nfsGetcounterPerip, found, not_lt.mpr room]
  removed := by
    intro rebalance
    refine ⟨?_, findipentry_rmvipentry ip orderly.sorted rebalance⟩
    simp [rmvipentry, found]
  counted := by
    intro event cpu key len classifies here counted
    have clear : ClearEvent state event := by
      intro ip created rebalance command
      simp [command_of_classifies classifies state] at command
    have inside := orderly.sized.countsInRange orderly.inRange event cpu key len entry classifies
      counted (here ▸ found)
    refine ⟨inside.1, ?_⟩
    have onMap := congrFun (addresses_nfsStep orderly.sorted clear) ip
    simp only [NfsEvent.onAddresses, command_of_classifies classifies state,
      show event.classified = _ from classifies, countOnAddresses, if_pos counted, here,
      Function.update_self, NfsState.addresses, found] at onMap
    exact onMap

theorem storedIp_eq_self_of_zeroTail (wellFormed : ip.WellFormed) (zeroTail : ZeroTail ip) :
    storedIp ip = ip :=
  storedIp_eq_self_iff.mpr ⟨wellFormed.padding, zeroTail⟩

theorem clearEvent_of_zeroTails (others : OthersClear state event)
    (zeroTails : ZeroTails state event) : ClearEvent state event := by
  intro ip created rebalance command
  by_cases wellFormed : ip.WellFormed
  · intro new _ absent
    apply clear_of_storedIp_eq
    apply storedIp_eq_self_of_zeroTail wellFormed
    exact zeroTails ip created rebalance command wellFormed new absent
  · exact others ip created rebalance command wellFormed

/-- A clear address is stored under a key that is not in the tree. -/
theorem ne_storedIp_of_clear {iptree : BinaryTree IpCounterEntry} (clear : Clear ip iptree)
    (absent : ∀ stored ∈ inorder iptree, stored.ip ≠ ip) {stored : IpCounterEntry}
    (member : stored ∈ inorder iptree) : stored.ip ≠ storedIp ip := by
  intro same
  have notBelow : ¬stored.ip.key < ip.key := by
    intro below
    have strictly := clear stored member below
    rw [same] at strictly
    exact lt_irrefl _ strictly
  apply absent stored member
  apply NfsIpaddr.key_injective
  apply le_antisymm
  · rw [same]
    exact key_storedIp_le ip
  · exact not_lt.mp notBelow

/-- Whatever is held is in the tree. -/
def Agrees (map held : AddressMap) : Prop :=
  ∀ ip entry, NfsIpaddr.WellFormed ip → held ip = some entry → map ip = some entry

theorem agrees_countOnAddresses {map held : AddressMap} (agrees : Agrees map held)
    (state : NfsState) (cpu : ℕ) (key : NfsRule) (len : UInt32) :
    Agrees (countOnAddresses state map cpu key len) (countOnAddresses state held cpu key len) := by
  intro ip entry wellFormed holds
  simp only [countOnAddresses] at holds ⊢
  split
  · next classified =>
      simp only [if_pos classified, Function.update_apply] at holds ⊢
      split
      · next here =>
          rw [if_pos here, Option.map_eq_some_iff] at holds
          rcases holds with ⟨old, held, rfl⟩
          rw [agrees key.lip old (here ▸ wellFormed) held]
          rfl
      · next elsewhere =>
          rw [if_neg elsewhere] at holds
          exact agrees ip entry wellFormed holds
  · next missed =>
      rw [if_neg missed] at holds
      exact agrees ip entry wellFormed holds

theorem agrees_addip {held : AddressMap} {created : Bool}
    {rebalance : Rebalance IpCounterEntry} (sorted : Sorted entryKey (inorder state.iptree))
    (command : event.command state = some (.addip ip created rebalance))
    (others : OthersClear state event) (zeroTails : ZeroTails state event)
    (agrees : Agrees state.addresses held) :
    Agrees ((NfsCmd.addip ip created rebalance).onAddresses state state.addresses)
      ((NfsCmd.addip ip created rebalance).onHeld state held) := by
  intro sought entry wellFormed holds
  rcases addipentry_cases state.maxtype ip created rebalance state.iptree with
    refused | ⟨nonempty, new, missing, linked, -, accepted⟩
  · simp only [NfsCmd.onHeld, NfsCmd.onAddresses, refused] at holds ⊢
    exact agrees sought entry wellFormed holds
  · have absent := (findipentry_eq_none_iff sorted).mp missing
    simp only [NfsCmd.onHeld, NfsCmd.onAddresses, accepted, if_true,
      Function.update_apply] at holds ⊢
    by_cases here : sought = ip
    · subst here
      have normal := storedIp_eq_self_of_zeroTail wellFormed
        (zeroTails sought created rebalance command wellFormed new absent)
      rw [if_pos rfl] at holds
      rwa [normal, if_pos rfl]
    · rw [if_neg here] at holds
      have stored := agrees sought entry wellFormed holds
      rcases (findipentry_eq_some_iff sorted).mp stored with ⟨member, rfl⟩
      have clear := clearEvent_of_zeroTails others zeroTails ip created rebalance command new
        nonempty absent
      rwa [if_neg (ne_storedIp_of_clear clear absent member)]

theorem agrees_onHeld {held : AddressMap} {cmd : NfsCmd}
    (sorted : Sorted entryKey (inorder state.iptree)) (command : event.command state = some cmd)
    (others : OthersClear state event) (zeroTails : ZeroTails state event)
    (agrees : Agrees state.addresses held) :
    Agrees (cmd.onAddresses state state.addresses) (cmd.onHeld state held) := by
  cases cmd with
  | addip ip created rebalance => exact agrees_addip sorted command others zeroTails agrees
  | rmvip ip rebalance =>
      intro sought entry wellFormed holds
      simp only [NfsCmd.onHeld, NfsCmd.onAddresses, Function.update_apply] at holds ⊢
      split
      · next here => simp [here] at holds
      · next elsewhere =>
          rw [if_neg elsewhere] at holds
          exact agrees sought entry wellFormed holds
  | _ => exact agrees

theorem serves_iff_agrees {both : NfsState × AddressMap} (orderly : Orderly both.1) :
    Serves ncpu both ↔ Agrees both.1.addresses both.2 := by
  constructor
  · intro serves ip entry wellFormed holds
    exact (serves ip entry wellFormed holds).found
  · intro agrees ip entry wellFormed holds
    exact served_of_found orderly (agrees ip entry wellFormed holds)

theorem serves_step_iff {both : NfsState × AddressMap} (orderly : Orderly both.1)
    (permitted : Permitted both.1 event) (serves : Serves ncpu both) :
    Serves ncpu (observe nfsStep heldStep both event) ↔ ZeroTails both.1 event := by
  rcases both with ⟨state, held⟩
  have sorted := orderly.sorted
  constructor
  · intro servesAfter ip created rebalance command wellFormed new absent
    have nonempty : ip.len ≠ 0 := by
      intro empty
      rcases wellFormed.family with four | six
      · simp [empty] at four
      · simp [empty] at six
    have missing := (findipentry_eq_none_iff sorted).mpr absent
    have accepted : (addipentry state.maxtype ip created rebalance state.iptree).1 = true := by
      have unblocked : link (steerIp ip) (newIpEntry state.maxtype ip) state.iptree ≠ none := by
        intro blocked
        have present := link_eq_none_iff.mp blocked
        rw [findipentry] at missing
        simp [missing] at present
      rcases Option.ne_none_iff_exists'.mp unblocked with ⟨linked, success⟩
      simp [addipentry, nonempty, new, success]
    have holds : heldStep state event held ip = some (newIpEntry state.maxtype ip) := by
      simp [heldStep, command, NfsCmd.onHeld, accepted]
    -- What is found has the sought address, and the new entry has the copy.
    have found := (servesAfter ip (newIpEntry state.maxtype ip) wellFormed holds).found
    have normal : storedIp ip = ip := ip_of_steerIp_eq (dir_of_find found)
    exact (storedIp_eq_self_iff.mp normal).2
  · intro zeroTails
    have clear := clearEvent_of_zeroTails permitted.others zeroTails
    apply (serves_iff_agrees (orderly_nfsStep orderly permitted clear)).mpr
    have agrees := (serves_iff_agrees orderly).mp serves
    simp only [observe, addresses_nfsStep sorted clear, NfsEvent.onAddresses, heldStep]
    cases command : event.command state with
    | some cmd => exact agrees_onHeld sorted command permitted.others zeroTails agrees
    | none =>
        cases event.classified with
        | none => exact agrees
        | some packet => exact agrees_countOnAddresses agrees state packet.1 packet.2.1 packet.2.2

/-- In a run of permitted requests, all that is held is served throughout exactly when each
new well-formed address has a zero tail. -/
theorem serves_always_iff (events : List (NfsEvent ncpu))
    (permitted : Meets nfsStep Permitted .init events) :
    Always (observe nfsStep heldStep) (Serves ncpu) (.init, fun _ => none) events ↔
      Meets nfsStep ZeroTails .init events := by
  have conditions := @meets_observe_iff _ _ nfsStep ZeroTails _ heldStep .init events fun _ => none
  rw [← conditions]
  apply @always_iff_meets_of_invariant _ _ _ _ _
    (fun both => Orderly both.1) (fun both event => Permitted both.1 event)
  · intro both event orderly allowed serves
    exact serves_step_iff orderly allowed serves
  · intro both event orderly allowed zeroTails
    exact orderly_nfsStep orderly allowed (clearEvent_of_zeroTails allowed.others zeroTails)
  · exact orderly_init
  · intro ip entry _ holds
    simp at holds
  · exact (meets_observe_iff _).mpr permitted

/-- 2001:db8::1. -/
def documentationIp : NfsIpaddr :=
  hookAddr 6 (⟨[0x20, 0x01, 0x0d, 0xb8, 0, 0, 0, 0, 0, 0, 0, 0, 0, 0, 0, 1], rfl⟩ : Bytes 16)

/-- An address is added to a module with one type. -/
def addRun (ip : NfsIpaddr) : List (NfsEvent 1) :=
  [.request (.init 1), .request (.addip ip true .none)]

theorem of_command_request {cmd asked : NfsCmd}
    (command : (NfsEvent.request asked : NfsEvent ncpu).command state = some cmd) :
    cmd = asked := by
  rw [command_request] at command
  split at command
  · cases command
  · exact (Option.some.inj command).symm

theorem permitted_init (maxtype : UInt8) :
    Permitted state (.request (.init maxtype) : NfsEvent ncpu) where
  short := by
    intro cmd command
    rw [of_command_request command]
    trivial
  inRange := by
    constructor
    · intro ip created rebalance command
      cases of_command_request command
    · intro rule created rebalance command
      cases of_command_request command
  others := by
    intro ip created rebalance command
    cases of_command_request command

theorem NfsIpaddr.WellFormed.short (wellFormed : ip.WellFormed) : ip.len ≤ 16 := by
  rcases wellFormed.family with four | six
  · rw [four]
    decide
  · rw [six]
    decide

theorem permitted_addip (wellFormed : ip.WellFormed) (created : Bool)
    (rebalance : Rebalance IpCounterEntry) :
    Permitted state (.request (.addip ip created rebalance) : NfsEvent ncpu) where
  short := by
    intro cmd command
    rw [of_command_request command]
    exact wellFormed.short
  inRange := by
    constructor
    · intro added created rebalance command
      cases of_command_request command
      exact wellFormed.short
    · intro rule created rebalance command
      cases of_command_request command
  others := by
    intro added created rebalance command other
    cases of_command_request command
    exact absurd wellFormed other

theorem permitted_addrule {rule : NfsRule} (short : rule.Short)
    (inRange : rule.typeidx < state.maxtype) (created : Bool) (rebalance : Rebalance NfsRule) :
    Permitted state (.request (.addrule rule created rebalance) : NfsEvent ncpu) where
  short := by
    intro cmd command
    rw [of_command_request command]
    exact short
  inRange := by
    constructor
    · intro ip created rebalance command
      cases of_command_request command
    · intro added created rebalance command
      cases of_command_request command
      exact inRange
  others := by
    intro ip created rebalance command
    cases of_command_request command

/-- An IPv4 address and a rule are added, and a packet is counted. -/
theorem serves_for_privateIp :
    Always (observe nfsStep heldStep) (Serves 1) (.init, fun _ => none)
      (slotRun 1 ++ [slotPacket]) := by
  have wellFormed : privateIp.WellFormed := wellFormed_hookAddr_four _
  have packet : ∀ state cmd, slotPacket.command state ≠ some cmd := by
    intro state cmd command
    cases command
  apply (serves_always_iff (slotRun 1 ++ [slotPacket]) ?_).mpr
  · refine ⟨?_, ?_, ?_, ?_, trivial⟩
    · intro ip created rebalance command
      cases of_command_request command
    · intro ip created rebalance command _ _ _
      cases of_command_request command
      exact wellFormed.unused rfl
    · intro ip created rebalance command
      cases of_command_request command
    · intro ip created rebalance command
      exact absurd command (packet _ _)
  · refine ⟨permitted_init 2, permitted_addip wellFormed true .none,
      permitted_addrule ⟨by decide, by decide⟩ (by decide) true .none, ?_, trivial⟩
    constructor
    · intro cmd command
      exact absurd command (packet _ cmd)
    · constructor
      · intro ip created rebalance command
        exact absurd command (packet _ _)
      · intro rule created rebalance command
        exact absurd command (packet _ _)
    · intro ip created rebalance command
      exact absurd command (packet _ _)

/-- 2001:db8::1 is added and not found. -/
theorem serves_fails_for_documentationIp :
    ¬∀ (ncpu : ℕ) (events : List (NfsEvent ncpu)), Meets nfsStep Permitted .init events →
      Always (observe nfsStep heldStep) (Serves ncpu) (.init, fun _ => none) events := by
  intro serves
  have wellFormed : documentationIp.WellFormed := wellFormed_hookAddr_six _
  have always := serves 1 (addRun documentationIp)
    ⟨permitted_init 1, permitted_addip wellFormed true .none, trivial⟩
  have found := (always.2.2 documentationIp (newIpEntry 1 documentationIp) wellFormed rfl).found
  have present := congrArg Option.isSome found
  revert present
  decide

end Linguafranca.Nfstat
