import Linguafranca.Nfstat.Step

/-!
# The counter tree as a map

For the rest of the module the counter tree is a map from addresses to entries. While the
addresses stay sorted, each operation of `ip_counter.c` acts on that map at one address,
and so does each step (`findipentry_nfsStep`). A new entry appears under the copy of its
address, which need not be the address that was passed.
-/

namespace Linguafranca.Nfstat

open SearchTree Run

/-- The counters as a map. -/
abbrev AddressMap : Type :=
  NfsIpaddr → Option IpCounterEntry

/-- The entry of each address in the tree. -/
def NfsState.addresses (state : NfsState) : AddressMap :=
  fun ip => findipentry ip state.iptree

variable {ncpu : ℕ} {state : NfsState} {event : NfsEvent ncpu}

/-! ## The operations -/

section Operations

variable {iptree : BinaryTree IpCounterEntry} {ip : NfsIpaddr}

theorem key_eq_iff {first second : NfsIpaddr} : first.key = second.key ↔ first = second :=
  ⟨fun same => NfsIpaddr.key_injective same, congrArg NfsIpaddr.key⟩

theorem addipentry_cases (maxtype : UInt8) (ip : NfsIpaddr) (created : Bool)
    (rebalance : Rebalance IpCounterEntry) (iptree : BinaryTree IpCounterEntry) :
    addipentry maxtype ip created rebalance iptree = (false, iptree) ∨
      ip.len ≠ 0 ∧ created ∧ findipentry ip iptree = none ∧
        ∃ linked, link (steerIp ip) (newIpEntry maxtype ip) iptree = some linked ∧
          addipentry maxtype ip created rebalance iptree = (true, rebalance.apply linked) := by
  simp only [addipentry, findipentry]
  by_cases unset : ip.len = 0
  · simp [unset]
  · cases created with
    | false => simp [unset]
    | true =>
        cases linked : link (steerIp ip) (newIpEntry maxtype ip) iptree with
        | none => simp [unset]
        | some grown =>
            right
            refine ⟨unset, rfl, ?_, grown, rfl, by simp [unset]⟩
            apply Option.not_isSome_iff_eq_none.mp
            intro present
            simp [link_eq_none_iff.mpr present] at linked

/-- With memory, an address is added exactly when it is not stored yet. -/
theorem addipentry_fst (maxtype : UInt8) (set : ip.len ≠ 0)
    (rebalance : Rebalance IpCounterEntry) (iptree : BinaryTree IpCounterEntry) :
    (addipentry maxtype ip true rebalance iptree).1 = (findipentry ip iptree).isNone := by
  rcases addipentry_cases maxtype ip true rebalance iptree with
    refused | ⟨-, -, absent, linked, -, accepted⟩
  · rw [refused]
    cases linked : link (steerIp ip) (newIpEntry maxtype ip) iptree with
    | none =>
        have present : (findipentry ip iptree).isSome := link_eq_none_iff.mp linked
        simp [Option.isNone_eq_false_iff.mpr present]
    | some grown => simp [addipentry, set, linked] at refused
  · simp [accepted, absent]

theorem findipentry_addipentry (maxtype : UInt8) {created : Bool}
    {rebalance : Rebalance IpCounterEntry} (sorted : Sorted entryKey (inorder iptree))
    (clear : ClearCall iptree (.add ip created rebalance)) (sought : NfsIpaddr) :
    findipentry sought (addipentry maxtype ip created rebalance iptree).2 =
      if (addipentry maxtype ip created rebalance iptree).1 ∧ sought = storedIp ip then
        some (newIpEntry maxtype ip)
      else findipentry sought iptree := by
  have sortedAfter := (sorted_addipentry_iff maxtype sorted).mpr clear
  rcases addipentry_cases maxtype ip created rebalance iptree with
    refused | ⟨-, -, -, linked, success, accepted⟩
  · simp [refused]
  · rw [accepted] at sortedAfter ⊢
    have sortedLinked : Sorted entryKey (inorder linked) := by
      simpa using sortedAfter
    simp only [findipentry, steerIp_eq sought, true_and, ← @key_eq_iff sought]
    apply (find_rebalance sortedLinked rebalance).trans
    apply (find_link sorted sortedLinked success).trans
    simp only [entryKey, newIpEntry_ip]
    rfl

theorem findipentry_rmvipentry (ip : NfsIpaddr) (sorted : Sorted entryKey (inorder iptree))
    (rebalance : Rebalance IpCounterEntry) (sought : NfsIpaddr) :
    findipentry sought (rmvipentry ip rebalance iptree).2 =
      if sought = ip then none else findipentry sought iptree := by
  cases found : findipentry ip iptree with
  | none =>
      simp only [rmvipentry, found]
      split
      · next here => rw [here, found]
      · rfl
  | some entry =>
      have sortedErased := sorted_rmvipentry ip .none sorted
      simp only [rmvipentry, found] at sortedErased ⊢
      simp only [findipentry, steerIp_eq, ← @key_eq_iff sought] at sortedErased ⊢
      exact (find_rebalance sortedErased rebalance).trans (find_erase sorted)

theorem findipentry_modify (ip : NfsIpaddr) (sorted : Sorted entryKey (inorder iptree)) (cpu : ℕ)
    (typeidx : UInt8) (bytes : UInt64) (sought : NfsIpaddr) :
    findipentry sought
        (modify (steerIp ip) (fun entry => entry.increment cpu typeidx bytes) iptree) =
      if sought = ip then
        (findipentry sought iptree).map fun entry => entry.increment cpu typeidx bytes
      else findipentry sought iptree := by
  simp only [findipentry, steerIp_eq, ← @key_eq_iff sought]
  exact find_modify sorted fun _ => rfl

end Operations

/-! ## The steps -/

theorem command_of_classifies {cpu : Fin ncpu} {key : NfsRule} {len : UInt32}
    (classifies : event.Classifies cpu key len) (state : NfsState) :
    event.command state = none := by
  cases classifies using NfsEvent.Classifies.elim <;> rfl

/-- A command as it acts on the map. -/
def NfsCmd.onAddresses (state : NfsState) (map : AddressMap) : NfsCmd → AddressMap
  | .addip ip created rebalance =>
      if (addipentry state.maxtype ip created rebalance state.iptree).1 then
        Function.update map (storedIp ip) (some (newIpEntry state.maxtype ip))
      else map
  | .rmvip ip _ => Function.update map ip none
  | _ => map

/-- A classified packet as it acts on the map. -/
def countOnAddresses (state : NfsState) (map : AddressMap) (cpu : ℕ) (key : NfsRule)
    (len : UInt32) : AddressMap :=
  let idx := getTypeidx state.ruletree key
  if 0 ≤ idx then
    Function.update map key.lip
      ((map key.lip).map fun entry => entry.increment cpu (UInt8.ofNat idx.toNat) len.toUInt64)
  else map

/-- A step as it acts on the map. -/
def NfsEvent.onAddresses (state : NfsState) (map : AddressMap) (event : NfsEvent ncpu) :
    AddressMap :=
  match event.command state, event.classified with
  | some cmd, _ => cmd.onAddresses state map
  | none, some (cpu, key, len) => countOnAddresses state map cpu key len
  | none, none => map

theorem addresses_effect (sorted : Sorted entryKey (inorder state.iptree)) (cmd : NfsCmd)
    (clear : ∀ ip created rebalance, cmd = .addip ip created rebalance →
      ClearCall state.iptree (.add ip created rebalance)) :
    (cmd.effect state).addresses = cmd.onAddresses state state.addresses := by
  funext sought
  cases cmd with
  | init maxtype =>
      simp only [NfsCmd.onAddresses, NfsState.addresses, (trees_init maxtype state).1]
  | addip ip created rebalance =>
      have found := findipentry_addipentry state.maxtype sorted
        (clear ip created rebalance rfl) sought
      apply found.trans
      simp only [NfsCmd.onAddresses]
      cases (addipentry state.maxtype ip created rebalance state.iptree).1
      · rfl
      · simp [Function.update_apply, NfsState.addresses]
  | rmvip ip rebalance =>
      have found := findipentry_rmvipentry ip sorted rebalance sought
      simp only [NfsCmd.effect, NfsCmd.onAddresses, Function.update_apply]
      exact found
  | _ => rfl

theorem addresses_countPacket (sorted : Sorted entryKey (inorder state.iptree)) (cpu : ℕ)
    (key : NfsRule) (len : UInt32) :
    (countPacket cpu key len state).addresses =
      countOnAddresses state state.addresses cpu key len := by
  funext sought
  cases found : findnfsrule key state.ruletree with
  | none =>
      rw [countPacket_of_not_found found]
      simp [countOnAddresses, getTypeidx, found]
  | some rule =>
      have modified := findipentry_modify key.lip sorted cpu rule.typeidx len.toUInt64
        sought
      rw [countPacket_of_found found]
      apply modified.trans
      simp only [countOnAddresses, getTypeidx_eq_some found, Int.natCast_nonneg, if_true,
        Int.toNat_natCast, UInt8.ofNat_toNat, Function.update_apply]
      split
      · next here => rw [here]; rfl
      · rfl

theorem addresses_nfsStep (sorted : Sorted entryKey (inorder state.iptree))
    (clear : ClearEvent state event) :
    (nfsStep state event).addresses = event.onAddresses state state.addresses := by
  cases command : event.command state with
  | some cmd =>
      have onMap := addresses_effect sorted cmd fun ip created rebalance added =>
        clear ip created rebalance (added ▸ command)
      simp only [nfsStep_of_command command, NfsEvent.onAddresses, command, onMap]
  | none =>
      simp only [NfsEvent.onAddresses, command]
      cases event with
      | ioctl request =>
          simp only [NfsEvent.command] at command
          simp [nfsStep, nfsIoctl_snd, command, NfsEvent.classified]
      | packet cpu skb hasIn hasOut =>
          cases built : hookfnRule skb hasIn hasOut with
          | none => simp [nfsStep, hookfn, NfsEvent.classified, built]
          | some key =>
              simpa [nfsStep, hookfn, NfsEvent.classified, built] using
                addresses_countPacket sorted cpu key skb.len
      | packet6 cpu skb hasIn hasOut =>
          cases built : hookfn6Rule skb hasIn hasOut with
          | none => simp [nfsStep, hookfn6, NfsEvent.classified, built]
          | some key =>
              simpa [nfsStep, hookfn6, NfsEvent.classified, built] using
                addresses_countPacket sorted cpu key skb.len

end Linguafranca.Nfstat
