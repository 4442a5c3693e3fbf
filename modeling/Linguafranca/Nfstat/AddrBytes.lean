import Linguafranca.Nfstat.Step

/-!
# Which address bytes are touched

`addipentry` copies `ip->len` bytes and `ipcmp` compares `src->len` bytes of two arrays of
sixteen, and no request is refused for its lengths. Each step is given the indices it
reads or writes; `Fits` says, in terms of the tags alone, when all of them lie inside.
-/

namespace Linguafranca.Nfstat

open SearchTree Run

/-- The indices at which `ipcmp` reads the two arrays. -/
def ipcmpBytes (src dst : NfsIpaddr) : List ℕ :=
  if src.len ≠ 0 ∧ dst.len ≠ 0 then
    if src.len > dst.len then []
    else if src.len < dst.len then []
    else List.range src.len.toNat
  else []

/-- The address bytes that `rulecmp` compares; it returns at the first field that differs. -/
def rulecmpBytes (src dst : NfsRule) : List ℕ :=
  if src.protocol > dst.protocol then []
  else if src.protocol < dst.protocol then []
  else if src.dir ≠ nfsAll ∧ dst.dir ≠ nfsAll ∧ src.dir > dst.dir then []
  else if src.dir ≠ nfsAll ∧ dst.dir ≠ nfsAll ∧ src.dir < dst.dir then []
  else if portcmp src.lport dst.lport ≠ 0 then []
  else if portcmp src.rport dst.rport ≠ 0 then []
  else if ipcmp src.lip dst.lip ≠ 0 then ipcmpBytes src.lip dst.lip
  else ipcmpBytes src.lip dst.lip ++ ipcmpBytes src.rip dst.rip

/-- The descent of `findnfsrule` and of `addnfsrule`. -/
def descentBytes (rule : NfsRule) (ruletree : BinaryTree NfsRule) : List ℕ :=
  (visited (steerRule rule) ruletree).flatMap (rulecmpBytes rule)

/-- The address bytes that `addipentry` copies. -/
def addipentryBytes (ip : NfsIpaddr) (created : Bool) : List ℕ :=
  if ip.len = 0 then []
  else if created then List.range ip.len.toNat
  else []

/-- The address bytes that `addnfsrule` compares on its descent. -/
def addnfsruleBytes (rule : NfsRule) (created : Bool) (ruletree : BinaryTree NfsRule) : List ℕ :=
  if created then descentBytes rule ruletree else []

/-- The address bytes that a command touches. -/
def NfsCmd.bytes (state : NfsState) : NfsCmd → List ℕ
  | .addip ip created _ => addipentryBytes ip created
  | .addrule rule created _ => addnfsruleBytes rule created state.ruletree
  | .rmvrule rule _ => descentBytes rule state.ruletree
  | _ => []

variable {ncpu : ℕ} {state : NfsState}

/-- The indices that one step reads or writes in address arrays. -/
def NfsEvent.bytes (state : NfsState) : NfsEvent ncpu → List ℕ
  | .ioctl request => (request.admitted state).elim [] (NfsCmd.bytes state)
  | .packet _ skb hasIn hasOut =>
      (hookfnRule skb hasIn hasOut).elim [] fun key => descentBytes key state.ruletree
  | .packet6 _ skb hasIn hasOut =>
      (hookfn6Rule skb hasIn hasOut).elim [] fun key => descentBytes key state.ruletree

/-- The event touches only the sixteen bytes of an address. -/
def InBounds (state : NfsState) (event : NfsEvent ncpu) : Prop :=
  ∀ index ∈ event.bytes state, index < 16

/-! ## When the bytes fit -/

/-- The two addresses do not share a tag above 16. -/
def TagsFit (src dst : NfsIpaddr) : Prop :=
  src.len = dst.len → src.len ≤ 16

/-- The rules tie on everything before the addresses. -/
def SameHead (src dst : NfsRule) : Prop :=
  src.protocol = dst.protocol ∧ (src.dir = nfsAll ∨ dst.dir = nfsAll ∨ src.dir = dst.dir) ∧
    portcmp src.lport dst.lport = 0 ∧ portcmp src.rport dst.rport = 0

/-- No rule on the way ties up to an address whose tag it shares and whose tag is above 16. -/
def DescentFits (rule : NfsRule) (ruletree : BinaryTree NfsRule) : Prop :=
  ∀ stored ∈ visited (steerRule rule) ruletree, SameHead rule stored →
    TagsFit rule.lip stored.lip ∧
      (ipcmp rule.lip stored.lip = 0 → TagsFit rule.rip stored.rip)

/-- The tags of the command, and of the rules it meets, are at most 16 where the code uses them. -/
def NfsCmd.Fits (state : NfsState) : NfsCmd → Prop
  | .addip ip created _ => created → ip.len ≤ 16
  | .addrule rule created _ => created → DescentFits rule state.ruletree
  | .rmvrule rule _ => DescentFits rule state.ruletree
  | _ => True

/-- A command performed by the step fits; packets always do. -/
def Fits (state : NfsState) (event : NfsEvent ncpu) : Prop :=
  ∀ cmd, event.command state = some cmd → cmd.Fits state

theorem range_lt_iff (len : UInt8) : (∀ index ∈ List.range len.toNat, index < 16) ↔ len ≤ 16 := by
  simp only [List.mem_range, UInt8.le_iff_toNat_le]
  constructor
  · intro below
    by_contra above
    have beyond := below 16 (by simpa using above)
    omega
  · intro small index lower
    exact lt_of_lt_of_le lower (by simpa using small)

theorem ipcmpBytes_of_len_eq {src dst : NfsIpaddr} (set : src.len ≠ 0) (same : src.len = dst.len) :
    ipcmpBytes src dst = List.range src.len.toNat := by
  simp [ipcmpBytes, ← same, set]

theorem ipcmpBytes_of_len_ne {src dst : NfsIpaddr} (differ : src.len ≠ dst.len) :
    ipcmpBytes src dst = [] := by
  rcases UInt8.lt_or_lt_of_ne differ with below | above
  · simp [ipcmpBytes, below]
  · simp [ipcmpBytes, above]

theorem ipcmpBytes_lt_iff (src dst : NfsIpaddr) :
    (∀ index ∈ ipcmpBytes src dst, index < 16) ↔ TagsFit src dst := by
  by_cases same : src.len = dst.len
  · by_cases unset : src.len = 0
    · simp [ipcmpBytes, TagsFit, unset]
    · simp only [ipcmpBytes_of_len_eq unset same, TagsFit, same, forall_const]
      exact range_lt_iff dst.len
  · simp [ipcmpBytes_of_len_ne same, TagsFit, same]

theorem rulecmpBytes_of_sameHead {src dst : NfsRule} (head : SameHead src dst) :
    rulecmpBytes src dst =
      if ipcmp src.lip dst.lip ≠ 0 then ipcmpBytes src.lip dst.lip
      else ipcmpBytes src.lip dst.lip ++ ipcmpBytes src.rip dst.rip := by
  simp only [SameHead] at head
  simp only [rulecmpBytes]
  grind

theorem rulecmpBytes_of_not_sameHead {src dst : NfsRule} (head : ¬SameHead src dst) :
    rulecmpBytes src dst = [] := by
  simp only [rulecmpBytes]
  simp only [SameHead] at head
  grind

theorem rulecmpBytes_lt_iff (src dst : NfsRule) :
    (∀ index ∈ rulecmpBytes src dst, index < 16) ↔
      (SameHead src dst → TagsFit src.lip dst.lip ∧
        (ipcmp src.lip dst.lip = 0 → TagsFit src.rip dst.rip)) := by
  by_cases head : SameHead src dst
  · rw [rulecmpBytes_of_sameHead head]
    by_cases tie : ipcmp src.lip dst.lip = 0
    · simp only [tie, ne_eq, not_true_eq_false, if_false, List.mem_append, head, forall_const,
        or_imp, forall_and, ipcmpBytes_lt_iff]
    · simp only [tie, ne_eq, not_false_eq_true, if_true, ipcmpBytes_lt_iff, head, forall_const,
        false_implies, and_true]
  · simp [rulecmpBytes_of_not_sameHead head, head]

theorem descentBytes_lt_iff (rule : NfsRule) (ruletree : BinaryTree NfsRule) :
    (∀ index ∈ descentBytes rule ruletree, index < 16) ↔ DescentFits rule ruletree := by
  simp only [descentBytes, List.mem_flatMap, DescentFits, ← rulecmpBytes_lt_iff]
  constructor
  · intro inside stored member index touched
    exact inside index ⟨stored, member, touched⟩
  · rintro inside index ⟨stored, member, touched⟩
    exact inside stored member index touched

theorem addipentryBytes_lt_iff (ip : NfsIpaddr) (created : Bool) :
    (∀ index ∈ addipentryBytes ip created, index < 16) ↔ (created → ip.len ≤ 16) := by
  simp only [addipentryBytes]
  by_cases unset : ip.len = 0
  · simp [unset]
  · cases created with
    | false => simp
    | true => simpa [unset] using range_lt_iff ip.len

theorem cmdBytes_lt_iff (state : NfsState) (cmd : NfsCmd) :
    (∀ index ∈ cmd.bytes state, index < 16) ↔ cmd.Fits state := by
  cases cmd with
  | addip ip created rebalance => exact addipentryBytes_lt_iff ip created
  | addrule rule created rebalance =>
      cases created with
      | false => simp [NfsCmd.bytes, addnfsruleBytes, NfsCmd.Fits]
      | true => simpa [NfsCmd.bytes, addnfsruleBytes, NfsCmd.Fits] using
        descentBytes_lt_iff rule state.ruletree
  | rmvrule rule rebalance => exact descentBytes_lt_iff rule state.ruletree
  | _ => simp [NfsCmd.bytes, NfsCmd.Fits]

/-- The tags of a packet's key are those of its family. -/
theorem descentFits_of_classifies {event : NfsEvent ncpu} {cpu : Fin ncpu} {key : NfsRule}
    {len : UInt32} (classifies : event.Classifies cpu key len) (ruletree : BinaryTree NfsRule) :
    DescentFits key ruletree := by
  have small : key.lip.len ≤ 16 ∧ key.rip.len ≤ 16 := by
    cases classifies using NfsEvent.Classifies.elim with
    | packet cpu skb hasIn hasOut key built =>
        rcases hookfnRule_eq_some built with ⟨hdr, -, -, lip, rip, -, -⟩
        simp [lip, rip, hookAddr]
    | packet6 cpu skb hasIn hasOut key built =>
        rcases hookfn6Rule_eq_some built with ⟨hdr, -, -, lip, rip, -, -⟩
        simp [lip, rip, hookAddr]
  intro stored _ _
  exact ⟨fun _ => small.1, fun _ _ => small.2⟩

theorem inBounds_iff_fits (state : NfsState) (event : NfsEvent ncpu) :
    InBounds state event ↔ Fits state event := by
  cases event with
  | ioctl request =>
      unfold InBounds Fits NfsEvent.bytes NfsEvent.command
      cases admitted : request.admitted state with
      | none => simp [admitted]
      | some cmd => simpa [admitted] using cmdBytes_lt_iff state cmd
  | packet cpu skb hasIn hasOut =>
      unfold InBounds Fits NfsEvent.bytes NfsEvent.command
      cases built : hookfnRule skb hasIn hasOut with
      | none => simp [built]
      | some key =>
          have classifies : (NfsEvent.packet cpu skb hasIn hasOut).Classifies cpu key skb.len :=
            .packet built
          have fits := descentFits_of_classifies classifies state.ruletree
          simpa [built, descentBytes_lt_iff] using fits
  | packet6 cpu skb hasIn hasOut =>
      unfold InBounds Fits NfsEvent.bytes NfsEvent.command
      cases built : hookfn6Rule skb hasIn hasOut with
      | none => simp [built]
      | some key =>
          have classifies : (NfsEvent.packet6 cpu skb hasIn hasOut).Classifies cpu key skb.len :=
            .packet6 built
          have fits := descentFits_of_classifies classifies state.ruletree
          simpa [built, descentBytes_lt_iff] using fits

/-! ## Short tags -/

/-- The tags of the rule are at most 16. -/
def NfsRule.Short (rule : NfsRule) : Prop :=
  rule.lip.len ≤ 16 ∧ rule.rip.len ≤ 16

/-- What the command adds has tags of at most 16. -/
def NfsCmd.AddsShort : NfsCmd → Prop
  | .addip ip _ _ => ip.len ≤ 16
  | .addrule rule _ _ => rule.Short
  | _ => True

/-- The tags of added addresses and rules are at most 16. -/
def AddsShort (state : NfsState) (event : NfsEvent ncpu) : Prop :=
  ∀ cmd, event.command state = some cmd → cmd.AddsShort

/-- The stored rules have tags of at most 16. -/
def StoresShort (state : NfsState) : Prop :=
  ∀ rule ∈ inorder state.ruletree, rule.Short

theorem storesShort_nfsStep (state : NfsState) (event : NfsEvent ncpu)
    (stores : StoresShort state) (adds : AddsShort state event) :
    StoresShort (nfsStep state event) := by
  intro rule stored
  rcases mem_ruletree_nfsStep stored with old | ⟨created, rebalance, command⟩
  · exact stores rule old
  · exact adds (.addrule rule created rebalance) command

/-- A shared tag is short when the stored one is. -/
theorem descentFits_of_storesShort (stores : StoresShort state) (rule : NfsRule) :
    DescentFits rule state.ruletree := by
  intro stored member _
  have short := stores stored (mem_of_mem_visited member)
  refine ⟨?_, ?_⟩
  · intro same
    rw [same]
    exact short.1
  · intro _ same
    rw [same]
    exact short.2

theorem fits_of_addsShort {event : NfsEvent ncpu} (stores : StoresShort state)
    (adds : AddsShort state event) : Fits state event := by
  intro cmd command
  have short := adds cmd command
  cases cmd with
  | addip ip created rebalance => exact fun _ => short
  | addrule rule created rebalance => exact fun _ => descentFits_of_storesShort stores rule
  | rmvrule rule rebalance => exact descentFits_of_storesShort stores rule
  | _ => trivial

/-- The bytes touched in a run lie inside the arrays exactly when every command fits, and
always when the tags added are at most 16. -/
theorem inBounds_run_iff (events : List (NfsEvent ncpu)) :
    (Meets nfsStep InBounds .init events ↔ Meets nfsStep Fits .init events) ∧
      (Meets nfsStep AddsShort .init events → Meets nfsStep InBounds .init events) := by
  have same : Meets nfsStep InBounds .init events ↔ Meets nfsStep Fits .init events :=
    ⟨meets_mono fun state event => (inBounds_iff_fits state event).mp,
      meets_mono fun state event => (inBounds_iff_fits state event).mpr⟩
  refine ⟨same, ?_⟩
  intro adds
  apply same.mpr
  refine @meets_of_invariant _ _ _ _ StoresShort _ ?_ ?_ _ _ ?_ adds
  · exact storesShort_nfsStep
  · intro state event
    exact fits_of_addsShort
  · intro rule stored
    simp [NfsState.init] at stored

/-- The claim of seventeen bytes by an added address is believed. -/
theorem inBounds_fails_for_longIp :
    ¬∀ (ncpu : ℕ) (events : List (NfsEvent ncpu)), Meets nfsStep InBounds .init events := by
  intro inside
  have last := inside 1 [.request (.init 1),
    .request (.addip ⟨17, Bytes.zero 3, Bytes.zero 16⟩ true .none)]
  have beyond := last.2.1 16 (by decide)
  omega

end Linguafranca.Nfstat
