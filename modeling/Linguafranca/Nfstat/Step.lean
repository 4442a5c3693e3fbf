import Linguafranca.Nfstat.AddressTree
import Linguafranca.Nfstat.Hook

/-!
# What one step of nfstat can do

A step either leaves the module alone, or performs a command that passed every check of
`nfs_ioctl`, or counts one packet (`nfsStep_cases`). Invariants of the module are derived
from these three cases; the checks themselves are not looked at again.
-/

namespace Linguafranca.Nfstat

open SearchTree Run

/-- The command of a request that passes every check before its handler. -/
def NfsRequest.admitted (request : NfsRequest) (state : NfsState) : Option NfsCmd :=
  if request.magicOk ∧ request.accessOk ∧ request.copyOk ∧
      ¬(request.cmd.needsInit ∧ state.maxtype = 0) then some request.cmd
  else none

/-- The command of an event that passes the checks of `nfs_ioctl`. -/
def NfsEvent.command {ncpu : ℕ} (state : NfsState) : NfsEvent ncpu → Option NfsCmd
  | .ioctl request => request.admitted state
  | .packet .. => none
  | .packet6 .. => none

/-- The effect of an admitted command on the static variables. -/
def NfsCmd.effect (state : NfsState) : NfsCmd → NfsState
  | .init maxtype => if state.maxtype = 0 then nfsinit maxtype state else state
  | .addip ip created rebalance =>
      { state with iptree := (addipentry state.maxtype ip created rebalance state.iptree).2 }
  | .rmvip ip rebalance =>
      { state with iptree := (rmvipentry ip rebalance state.iptree).2 }
  | .addrule rule created rebalance =>
      { state with ruletree := (addnfsrule rule created rebalance state.ruletree).2 }
  | .rmvrule rule rebalance =>
      { state with ruletree := (rmvnfsrule rule rebalance state.ruletree).2 }
  | .getcounter .. => state
  | .gettypemax => state
  | .other => state

/-- The CPU, the key and the length of a packet for which `get_typeidx` is called. -/
def NfsEvent.classified {ncpu : ℕ} : NfsEvent ncpu → Option (Fin ncpu × NfsRule × UInt32)
  | .ioctl _ => none
  | .packet cpu skb hasIn hasOut =>
      (hookfnRule skb hasIn hasOut).map fun key => (cpu, key, skb.len)
  | .packet6 cpu skb hasIn hasOut =>
      (hookfn6Rule skb hasIn hasOut).map fun key => (cpu, key, skb.len)

/-- The event is a packet for which `get_typeidx` is called with the key. -/
def NfsEvent.Classifies {ncpu : ℕ} (event : NfsEvent ncpu) (cpu : Fin ncpu) (key : NfsRule)
    (len : UInt32) : Prop :=
  event.classified = some (cpu, key, len)

namespace NfsEvent.Classifies

variable {ncpu : ℕ} {key : NfsRule}

theorem packet {cpu : Fin ncpu} {skb : SkBuff Iphdr} {hasIn hasOut : Bool}
    (built : hookfnRule skb hasIn hasOut = some key) :
    (NfsEvent.packet cpu skb hasIn hasOut).Classifies cpu key skb.len := by
  simp [NfsEvent.Classifies, NfsEvent.classified, built]

theorem packet6 {cpu : Fin ncpu} {skb : SkBuff Ipv6hdr} {hasIn hasOut : Bool}
    (built : hookfn6Rule skb hasIn hasOut = some key) :
    (NfsEvent.packet6 cpu skb hasIn hasOut).Classifies cpu key skb.len := by
  simp [NfsEvent.Classifies, NfsEvent.classified, built]

/-- A classified event is a packet of one of the two hooks. -/
@[elab_as_elim]
theorem elim {motive : ∀ (event : NfsEvent ncpu) cpu key len, event.Classifies cpu key len → Prop}
    {event : NfsEvent ncpu} {cpu : Fin ncpu} {len : UInt32}
    (packet : ∀ cpu skb hasIn hasOut key (built : hookfnRule skb hasIn hasOut = some key),
      motive (.packet cpu skb hasIn hasOut) cpu key skb.len (packet built))
    (packet6 : ∀ cpu skb hasIn hasOut key (built : hookfn6Rule skb hasIn hasOut = some key),
      motive (.packet6 cpu skb hasIn hasOut) cpu key skb.len (packet6 built))
    (classifies : event.Classifies cpu key len) : motive event cpu key len classifies := by
  cases event with
  | ioctl request => simp [NfsEvent.Classifies, NfsEvent.classified] at classifies
  | packet at_cpu skb hasIn hasOut =>
      rcases Option.map_eq_some_iff.mp classifies with ⟨built, same, here⟩
      cases here
      exact packet cpu skb hasIn hasOut key same
  | packet6 at_cpu skb hasIn hasOut =>
      rcases Option.map_eq_some_iff.mp classifies with ⟨built, same, here⟩
      cases here
      exact packet6 cpu skb hasIn hasOut key same

end NfsEvent.Classifies

theorem nfsIoctl_snd (ncpu : ℕ) (request : NfsRequest) (state : NfsState) :
    (nfsIoctl ncpu request state).2 =
      match request.admitted state with
      | none => state
      | some cmd => cmd.effect state := by
  rcases request with ⟨magicOk, accessOk, copyOk, cmd⟩
  cases magicOk
  · simp [nfsIoctl, NfsRequest.admitted]
  · cases accessOk
    · simp [nfsIoctl, NfsRequest.admitted]
    · by_cases early : cmd.needsInit ∧ state.maxtype = 0
      · simp [nfsIoctl, NfsRequest.admitted, early]
      · simp only [nfsIoctl, NfsRequest.admitted, early, Bool.not_true, Bool.false_eq_true,
          if_false, not_false_eq_true, and_true, true_and]
        cases copyOk
        · cases cmd with
          | init maxtype => by_cases unset : state.maxtype = 0 <;> simp [nfsSwitch, unset]
          | _ => simp [nfsSwitch]
        · cases cmd with
          | init maxtype =>
              by_cases unset : state.maxtype = 0 <;> simp [nfsSwitch, NfsCmd.effect, unset]
          | getcounter ip len allocated copied =>
              simp only [nfsSwitch, NfsCmd.effect, if_true]
              split <;> rfl
          | _ => simp [nfsSwitch, NfsCmd.effect]

theorem nfsStep_cases {ncpu : ℕ} (state : NfsState) (event : NfsEvent ncpu) :
    nfsStep state event = state ∨
      (∃ cmd, event.command state = some cmd ∧ nfsStep state event = cmd.effect state) ∨
      ∃ cpu key len, event.Classifies cpu key len ∧
        nfsStep state event = countPacket cpu key len state := by
  cases event with
  | ioctl request =>
      simp only [nfsStep, NfsEvent.command, nfsIoctl_snd]
      cases request.admitted state with
      | none => exact Or.inl rfl
      | some cmd => exact Or.inr (Or.inl ⟨cmd, rfl, rfl⟩)
  | packet cpu skb hasIn hasOut =>
      simp only [nfsStep, hookfn]
      cases built : hookfnRule skb hasIn hasOut with
      | none => exact Or.inl rfl
      | some key => exact Or.inr (Or.inr ⟨cpu, key, skb.len, .packet built, rfl⟩)
  | packet6 cpu skb hasIn hasOut =>
      simp only [nfsStep, hookfn6]
      cases built : hookfn6Rule skb hasIn hasOut with
      | none => exact Or.inl rfl
      | some key => exact Or.inr (Or.inr ⟨cpu, key, skb.len, .packet6 built, rfl⟩)

theorem nfsStep_of_command {ncpu : ℕ} {state : NfsState} {event : NfsEvent ncpu} {cmd : NfsCmd}
    (command : event.command state = some cmd) : nfsStep state event = cmd.effect state := by
  cases event with
  | ioctl request =>
      rw [NfsEvent.command] at command
      simp [nfsStep, nfsIoctl_snd, command]
  | packet cpu skb hasIn hasOut => simp [NfsEvent.command] at command
  | packet6 cpu skb hasIn hasOut => simp [NfsEvent.command] at command

@[simp]
theorem command_request {ncpu : ℕ} (state : NfsState) (cmd : NfsCmd) :
    (NfsEvent.request cmd : NfsEvent ncpu).command state =
      if cmd.needsInit ∧ state.maxtype = 0 then none else some cmd := by
  simp only [NfsEvent.command, NfsEvent.request, NfsRequest.admitted, true_and, ite_not]

/-- A command other than `NFS_CMD_INIT` is admitted only after the number of types is set. -/
theorem maxtype_ne_zero_of_command {ncpu : ℕ} {state : NfsState} {event : NfsEvent ncpu}
    {cmd : NfsCmd} (command : event.command state = some cmd) (needs : cmd.needsInit) :
    state.maxtype ≠ 0 := by
  cases event with
  | ioctl request =>
      simp only [NfsEvent.command, NfsRequest.admitted] at command
      split at command
      · next checks =>
          obtain rfl := Option.some.inj command
          intro unset
          exact checks.2.2.2 ⟨needs, unset⟩
      · simp at command
  | packet cpu skb hasIn hasOut => simp [NfsEvent.command] at command
  | packet6 cpu skb hasIn hasOut => simp [NfsEvent.command] at command

/-! ## Counting a packet -/

theorem inccounter_eq_modify (ip : NfsIpaddr) (typeidx : UInt8) (bytes : UInt64) (cpu : ℕ)
    (iptree : BinaryTree IpCounterEntry) :
    inccounter ip typeidx bytes cpu iptree =
      modify (steerIp ip) (fun entry => entry.increment cpu typeidx bytes) iptree := by
  simp only [inccounter]
  split
  · next missing => exact (modify_of_find_none _ missing).symm
  · rfl

theorem getTypeidx_eq_some {ruletree : BinaryTree NfsRule} {key rule : NfsRule}
    (found : findnfsrule key ruletree = some rule) :
    getTypeidx ruletree key = rule.typeidx.toNat := by
  simp [getTypeidx, found]

/-- A type read from the tree passes the range check of the hooks. -/
theorem countPacket_of_found {cpu : ℕ} {key rule : NfsRule} {len : UInt32} {state : NfsState}
    (found : findnfsrule key state.ruletree = some rule) :
    countPacket cpu key len state =
      { state with
        iptree := modify (steerIp key.lip)
          (fun entry => entry.increment cpu rule.typeidx len.toUInt64) state.iptree } := by
  have small := rule.typeidx.toNat_lt
  simp only [countPacket, getTypeidx_eq_some found, inccounter_eq_modify]
  rw [if_neg (by omega)]
  simp

theorem countPacket_of_not_found {cpu : ℕ} {key : NfsRule} {len : UInt32} {state : NfsState}
    (missing : findnfsrule key state.ruletree = none) :
    countPacket cpu key len state = state := by
  simp [countPacket, getTypeidx, missing]

theorem countPacket_frame (cpu : ℕ) (key : NfsRule) (len : UInt32) (state : NfsState) :
    (countPacket cpu key len state).maxtype = state.maxtype ∧
      (countPacket cpu key len state).ruletree = state.ruletree ∧
      (inorder (countPacket cpu key len state).iptree).map IpCounterEntry.ip =
        (inorder state.iptree).map IpCounterEntry.ip := by
  cases found : findnfsrule key state.ruletree with
  | none => simp [countPacket_of_not_found found]
  | some rule =>
      rw [countPacket_of_found found]
      refine ⟨rfl, rfl, map_inorder_modify ?_ state.iptree⟩
      intro entry
      exact increment_ip entry cpu rule.typeidx len.toUInt64

/-! ## What the trees hold after a step -/

theorem ip_of_steerIp_eq {ip : NfsIpaddr} {entry : IpCounterEntry}
    (stops : steerIp ip entry = .eq) : entry.ip = ip := by
  rw [steerIp_eq_cmp_key, cmp_eq_eq_iff] at stops
  exact (NfsIpaddr.key_injective stops).symm

theorem mem_addipentry {maxtype : UInt8} {ip : NfsIpaddr} {created : Bool}
    {rebalance : Rebalance IpCounterEntry} {iptree : BinaryTree IpCounterEntry}
    {entry : IpCounterEntry}
    (member : entry ∈ inorder (addipentry maxtype ip created rebalance iptree).2) :
    entry ∈ inorder iptree ∨ entry = newIpEntry maxtype ip := by
  simp only [addipentry] at member
  split at member
  · exact Or.inl member
  · split at member
    · split at member
      · exact Or.inl member
      · next linked success =>
          rw [Rebalance.inorder_apply, mem_inorder_link success] at member
          exact member.symm
    · exact Or.inl member

theorem mem_rmvipentry {ip : NfsIpaddr} {rebalance : Rebalance IpCounterEntry}
    {iptree : BinaryTree IpCounterEntry} {entry : IpCounterEntry}
    (member : entry ∈ inorder (rmvipentry ip rebalance iptree).2) : entry ∈ inorder iptree := by
  simp only [rmvipentry] at member
  split at member
  · exact member
  · rw [Rebalance.inorder_apply] at member
    exact (inorder_erase_sublist iptree).subset member

theorem mem_addnfsrule {rule stored : NfsRule} {created : Bool} {rebalance : Rebalance NfsRule}
    {ruletree : BinaryTree NfsRule}
    (member : stored ∈ inorder (addnfsrule rule created rebalance ruletree).2) :
    stored ∈ inorder ruletree ∨ stored = rule := by
  simp only [addnfsrule] at member
  split at member
  · split at member
    · exact Or.inl member
    · next linked success =>
        rw [Rebalance.inorder_apply, mem_inorder_link success] at member
        exact member.symm
  · exact Or.inl member

theorem mem_rmvnfsrule {rule stored : NfsRule} {rebalance : Rebalance NfsRule}
    {ruletree : BinaryTree NfsRule}
    (member : stored ∈ inorder (rmvnfsrule rule rebalance ruletree).2) :
    stored ∈ inorder ruletree := by
  simp only [rmvnfsrule] at member
  split at member
  · exact member
  · rw [Rebalance.inorder_apply] at member
    exact (inorder_erase_sublist ruletree).subset member

theorem trees_init (maxtype : UInt8) (state : NfsState) :
    (NfsCmd.effect state (.init maxtype)).iptree = state.iptree ∧
      (NfsCmd.effect state (.init maxtype)).ruletree = state.ruletree := by
  simp only [NfsCmd.effect, nfsinit]
  split
  · split <;> exact ⟨rfl, rfl⟩
  · exact ⟨rfl, rfl⟩

/-- An entry after a step was there before, is new, or was counted at. -/
theorem mem_iptree_nfsStep {ncpu : ℕ} {state : NfsState} {event : NfsEvent ncpu}
    {entry : IpCounterEntry} (member : entry ∈ inorder (nfsStep state event).iptree) :
    entry ∈ inorder state.iptree ∨
      (∃ ip created rebalance, event.command state = some (.addip ip created rebalance) ∧
        entry = newIpEntry state.maxtype ip) ∨
      ∃ cpu key len rule old, event.Classifies cpu key len ∧
        findnfsrule key state.ruletree = some rule ∧ old ∈ inorder state.iptree ∧
        old.ip = key.lip ∧ entry = old.increment cpu rule.typeidx len.toUInt64 := by
  rcases nfsStep_cases state event with
    same | ⟨cmd, command, effect⟩ | ⟨cpu, key, len, classifies, counted⟩
  · left
    rwa [same] at member
  · rw [effect] at member
    cases cmd with
    | init maxtype =>
        left
        rwa [(trees_init maxtype state).1] at member
    | addip ip created rebalance =>
        rcases mem_addipentry member with old | new
        · exact Or.inl old
        · exact Or.inr (Or.inl ⟨ip, created, rebalance, command, new⟩)
    | rmvip ip rebalance => exact Or.inl (mem_rmvipentry member)
    | _ => exact Or.inl member
  · rw [counted] at member
    cases found : findnfsrule key state.ruletree with
    | none =>
        left
        rwa [countPacket_of_not_found found] at member
    | some rule =>
        rw [countPacket_of_found found] at member
        rcases mem_of_mem_modify member with same | ⟨old, stored, stops, updated⟩
        · exact Or.inl same
        · exact Or.inr (Or.inr ⟨cpu, key, len, rule, old, classifies, found, stored,
            ip_of_steerIp_eq stops, updated⟩)

theorem mem_ruletree_nfsStep {ncpu : ℕ} {state : NfsState} {event : NfsEvent ncpu}
    {stored : NfsRule} (member : stored ∈ inorder (nfsStep state event).ruletree) :
    stored ∈ inorder state.ruletree ∨
      ∃ created rebalance, event.command state = some (.addrule stored created rebalance) := by
  rcases nfsStep_cases state event with
    same | ⟨cmd, command, effect⟩ | ⟨cpu, key, len, -, counted⟩
  · left
    rwa [same] at member
  · rw [effect] at member
    cases cmd with
    | init maxtype =>
        left
        rwa [(trees_init maxtype state).2] at member
    | addrule rule created rebalance =>
        rcases mem_addnfsrule member with old | rfl
        · exact Or.inl old
        · exact Or.inr ⟨created, rebalance, command⟩
    | rmvrule rule rebalance => exact Or.inl (mem_rmvnfsrule member)
    | _ => exact Or.inl member
  · left
    rwa [counted, (countPacket_frame cpu key len state).2.1] at member

theorem maxtype_nfsStep {ncpu : ℕ} (state : NfsState) (event : NfsEvent ncpu)
    (set : state.maxtype ≠ 0) : (nfsStep state event).maxtype = state.maxtype := by
  rcases nfsStep_cases state event with
    same | ⟨cmd, command, effect⟩ | ⟨cpu, key, len, -, counted⟩
  · rw [same]
  · rw [effect]
    cases cmd with
    | init maxtype => simp [NfsCmd.effect, set]
    | _ => rfl
  · rw [counted, (countPacket_frame cpu key len state).1]

/-! ## The addresses stay sorted -/

/-- An `NFS_CMD_ADDIP` that stores an entry must be clear. -/
def ClearEvent {ncpu : ℕ} (state : NfsState) (event : NfsEvent ncpu) : Prop :=
  ∀ ip created rebalance, event.command state = some (.addip ip created rebalance) →
    ClearCall state.iptree (.add ip created rebalance)

theorem sorted_iff_of_map_ip {first second : List IpCounterEntry}
    (same : first.map IpCounterEntry.ip = second.map IpCounterEntry.ip) :
    Sorted entryKey first ↔ Sorted entryKey second := by
  have keys : ∀ entries : List IpCounterEntry, Sorted entryKey entries ↔
      (entries.map IpCounterEntry.ip).Pairwise (fun x y => x.key < y.key) := by
    intro entries
    rw [List.pairwise_map]
    rfl
  rw [keys, keys, same]

theorem sorted_nfsStep {ncpu : ℕ} (state : NfsState) (event : NfsEvent ncpu)
    (sorted : Sorted entryKey (inorder state.iptree)) (clear : ClearEvent state event) :
    Sorted entryKey (inorder (nfsStep state event).iptree) := by
  rcases nfsStep_cases state event with
    same | ⟨cmd, command, effect⟩ | ⟨cpu, key, len, -, counted⟩
  · rwa [same]
  · rw [effect]
    cases cmd with
    | init maxtype =>
        rwa [(trees_init maxtype state).1]
    | addip ip created rebalance =>
        exact (sorted_addipentry_iff state.maxtype sorted).mpr (clear ip created rebalance command)
    | rmvip ip rebalance => exact sorted_rmvipentry ip rebalance sorted
    | _ => exact sorted
  · rw [counted]
    exact (sorted_iff_of_map_ip (countPacket_frame cpu key len state).2.2).mpr sorted

end Linguafranca.Nfstat
