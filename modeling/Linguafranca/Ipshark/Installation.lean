import Linguafranca.Ipshark.Exclusion
import Linguafranca.Ipshark.Hook
import Linguafranca.Ipshark.Membership

/-!
# Packets that arrive during a configuration

`devset_add` sets the mode first and then adds the names one by one, while the hooks are
already registered. Here `set_namelist` is its atomic steps: the `cas`, the checks with the
mode, one iteration of the loop at a time, and the return. A packet on excluded devices is
captured when it arrives after the mode is set and before the names of its devices are in
the table.
-/

namespace Linguafranca.Ipshark

open Run

/-- Where `set_namelist` is: before the `cas`, before the mode is set, before an iteration of
the loop, before the `set` after an error, or behind its end. -/
inductive Install where
  | idle
  | entered
  | inserting (ii : ℕ)
  | leaving (err : Int)
  | returned (err : Int)
deriving DecidableEq

/-- The device, and how far the call that installs the list has come. -/
structure Installing where
  dev : Device
  pc : Install

/-- The call goes on, or a packet arrives. -/
inductive InstallEvent where
  | step
  | packet (p : Packet)

/-- The error of `set_namelist` before `devset_add`. -/
def copyError (args : SetArgs) : Int :=
  let err := toInt args.copyList
  if err ≠ 0 then err
  else if args.devnum ≤ 0 then -einval
  else if !args.accessOk then 1
  else if !args.vmalloc then -efault
  else toInt args.copyNames

/-- The checks of `devset_add`, and the mode. -/
def setMode (l : DevnameList) (set : Devset) : Int × Devset :=
  match set.devHashtable with
  | none => (-enomem, set)
  | some _ =>
      if set.whiteBlack ≠ ipsNone then (-eexist, set)
      else if l.whiteBlack = ipsNone then (-enoexec, set)
      else (0, { set with whiteBlack := l.whiteBlack })

section

variable (jhash : List UInt8 → UInt32 → UInt32)

/-- Insert the first of the names. -/
def insertName (kmalloc : Bool) (names : List Devname) (set : Devset) : Devset :=
  match names with
  | [] => set
  | name :: _ =>
      { set with
        devHashtable :=
          set.devHashtable.map (addName jhash kmalloc (names.flatMap Bytes.toList) name) }

/-- The next step of `set_namelist`. -/
def installNext (args : SetArgs) (s : Installing) : Installing :=
  match s.pc with
  | .idle =>
      let entered := cas .opened .nameSet s.dev
      ⟨entered.2, if entered.1 = 0 then .entered else .returned entered.1⟩
  | .entered =>
      if copyError args ≠ 0 then { s with pc := .leaving (copyError args) }
      else
        let mode := setMode args.list s.dev.devset
        ⟨{ s.dev with devset := mode.2 }, if mode.1 = 0 then .inserting 0 else .leaving mode.1⟩
  | .inserting ii =>
      if ii < args.list.names.length then
        ⟨{ s.dev with
            devset := insertName jhash (args.kmalloc ii) (args.list.names.drop ii) s.dev.devset },
          .inserting (ii + 1)⟩
      else { s with pc := .returned 0 }
  | .leaving err => ⟨set .opened s.dev, .returned err⟩
  | .returned _ => s

/-- The device after an event. -/
def installStep (args : SetArgs) (s : Installing) : InstallEvent → Installing
  | .step => installNext jhash args s
  | .packet p =>
      match p.hook jhash s.dev.devset s.dev.ipQueue with
      | none => s
      | some hooked => { s with dev := { s.dev with ipQueue := hooked.2 } }

end

/-- The names in the table once the mode is set. -/
def Install.inserted (names : List Devname) : Install → Option (List Devname)
  | .inserting ii => some (names.take ii)
  | .returned err => if err = 0 then some names else none
  | _ => none

/-- All devices of the packet are in the list. -/
def Excluded (names : List Devname) (p : Packet) : Prop :=
  ∀ dev ∈ p.devices, cString dev.name.toList ∈ listed names

instance (names : List Devname) (p : Packet) : Decidable (Excluded names p) :=
  inferInstanceAs (Decidable (∀ dev ∈ p.devices, cString dev.name.toList ∈ listed names))

/-- No excluded packet is captured. -/
def Spares (jhash : List UInt8 → UInt32 → UInt32) (names : List Devname) (s : Installing) :
    InstallEvent → Prop
  | .step => True
  | .packet p => Excluded names p → ¬p.Captured jhash s.dev.devset s.dev.ipQueue

/-- An excluded packet that could be queued comes before the mode is set or after the names
of its devices are inserted. -/
def Timely (names : List Devname) (s : Installing) : InstallEvent → Prop
  | .step => True
  | .packet p => Excluded names p → p.Complete → HasRoom p.cpu s.dev.ipQueue →
      ∀ inserted, s.pc.inserted names = some inserted →
        ∀ dev ∈ p.devices, cString dev.name.toList ∈ listed inserted

/-- The names of the devices of a packet are terminated. -/
def Named : InstallEvent → Prop
  | .step => True
  | .packet p => ∀ dev ∈ p.devices, Terminated dev.name.toList

/-- The mode, the table and the place in `set_namelist` tell the same. -/
structure Progress (jhash : List UInt8 → UInt32 → UInt32) (args : SetArgs) (s : Installing) :
    Prop where
  failed : ∀ err, s.pc = .leaving err → err ≠ 0
  before : s.pc.inserted args.list.names = none → s.dev.devset = ⟨some fun _ => [], ipsNone⟩
  after : ∀ inserted, s.pc.inserted args.list.names = some inserted →
    ∃ table, s.dev.devset = ⟨some table, args.whiteBlack⟩ ∧ args.whiteBlack ≠ ipsNone ∧
      Filed jhash table ∧ ∀ name, name ∈ Buckets.keys storedName table ↔ name ∈ listed inserted

section

variable {jhash : List UInt8 → UInt32 → UInt32} {args : SetArgs} {s : Installing} {dev : Device}
  {set : Devset} {l : DevnameList}

/-! ## The steps without interruption -/

theorem setMode_cases (l : DevnameList) (set : Devset) :
    (setMode l set).1 ≠ 0 ∧ (setMode l set).2 = set ∨
      (setMode l set).1 = 0 ∧ l.whiteBlack ≠ ipsNone ∧
        ∃ table, set = ⟨some table, ipsNone⟩ ∧ (setMode l set).2 = ⟨some table, l.whiteBlack⟩ := by
  rcases set with ⟨devHashtable, whiteBlack⟩
  cases devHashtable with
  | none =>
      left
      simp [setMode, enomem]
  | some table =>
      by_cases unset : whiteBlack = ipsNone
      · subst unset
        by_cases kind : l.whiteBlack = ipsNone
        · left
          simp [setMode, kind, enoexec]
        · right
          simp [setMode, kind]
      · left
        simp [setMode, unset, eexist]

theorem devsetAdd_eq (kmalloc : ℕ → Bool) (args : SetArgs) (set : Devset) :
    devsetAdd jhash kmalloc (some args.list) set =
      ((setMode args.list set).1,
        if (setMode args.list set).1 = 0 then
          { (setMode args.list set).2 with
            devHashtable := (setMode args.list set).2.devHashtable.map fun table =>
              addNames jhash kmalloc table 0 args.list.names }
        else set) := by
  rcases set with ⟨devHashtable, whiteBlack⟩
  cases devHashtable with
  | none => simp [devsetAdd, setMode, enomem]
  | some table =>
      by_cases unset : whiteBlack = ipsNone
      · by_cases kind : args.whiteBlack = ipsNone
        · simp [devsetAdd, setMode, SetArgs.list, unset, kind, enoexec]
        · simp [devsetAdd, setMode, SetArgs.list, DevnameList.names, unset, kind]
      · simp [devsetAdd, setMode, unset, eexist]

theorem setNamelistBody_eq (args : SetArgs) (dev : Device) :
    setNamelistBody jhash args dev =
      if copyError args ≠ 0 then (copyError args, dev)
      else
        ((devsetAdd jhash args.kmalloc (some args.list) dev.devset).1,
          { dev with devset := (devsetAdd jhash args.kmalloc (some args.list) dev.devset).2 }) := by
  simp only [setNamelistBody, copyError]
  by_cases copied : toInt args.copyList = 0
  · by_cases empty : args.devnum ≤ 0
    · simp [copied, empty, einval]
    · by_cases readable : args.accessOk
      · by_cases allocated : args.vmalloc
        · by_cases named : toInt args.copyNames = 0
          · simp [copied, empty, readable, allocated, named, SetArgs.list]
          · simp [copied, empty, readable, allocated, named]
        · simp [copied, empty, readable, allocated, efault]
      · simp [copied, empty, readable]
  · simp [copied]

theorem run_inserting {table : ℕ → List DevEntry} {mode : Int} {ii left : ℕ}
    (start : s = ⟨{ dev with devset := ⟨some table, mode⟩ }, .inserting ii⟩)
    (count : ii + left = args.list.names.length) :
    run (installStep jhash args) s (List.replicate (left + 1) .step) =
      ⟨{ dev with
          devset :=
            ⟨some (addNames jhash args.kmalloc table ii (args.list.names.drop ii)), mode⟩ },
        .returned 0⟩ := by
  subst start
  induction left generalizing table ii with
  | zero =>
      have past : ¬ii < args.list.names.length := by omega
      rw [List.drop_eq_nil_of_le (by omega)]
      simp [installStep, installNext, past, addNames]
  | succ left ih =>
      have inside : ii < args.list.names.length := by omega
      rw [List.replicate_succ, run_cons, List.drop_eq_getElem_cons inside, addNames_cons]
      simp only [installStep, installNext, if_pos inside, insertName,
        List.drop_eq_getElem_cons inside, Option.map_some]
      apply ih
      omega

theorem run_returned (dev : Device) (err : Int) (count : ℕ) :
    run (installStep jhash args) ⟨dev, .returned err⟩ (List.replicate count .step) =
      ⟨dev, .returned err⟩ := by
  induction count with
  | zero => rfl
  | succ count ih => simpa [List.replicate_succ, installStep, installNext] using ih

/-- A configuration that no packet interrupts is `set_namelist`. -/
theorem run_install (args : SetArgs) (dev : Device) :
    run (installStep jhash args) ⟨dev, .idle⟩ (List.replicate (args.list.names.length + 3) .step) =
      ⟨(setNamelist jhash args dev).2, .returned (setNamelist jhash args dev).1⟩ := by
  rw [List.replicate_succ, run_cons, List.replicate_succ, run_cons]
  simp only [installStep, setNamelist, cas]
  by_cases free : dev.devState = .opened
  · simp only [installNext, cas, free, if_true, ne_eq, not_true_eq_false, if_false]
    rw [setNamelistBody_eq]
    by_cases copied : copyError args = 0
    · simp only [copied, ne_eq, not_true_eq_false, if_false]
      rw [devsetAdd_eq]
      rcases setMode_cases args.list dev.devset with
        ⟨failed, same⟩ | ⟨done, -, table, before, after⟩
      · simp only [failed, same, if_false, not_false_eq_true, if_true]
        rw [List.replicate_succ, run_cons]
        exact run_returned _ _ _
      · have looped := @run_inserting jhash args _ { dev with devState := .nameSet } table
          args.list.whiteBlack 0 args.list.names.length rfl (by omega)
        simpa only [done, after, if_true, not_true_eq_false, if_false, Option.map_some,
          List.drop_zero] using looped
    · simp only [copied, ne_eq, not_false_eq_true, if_true]
      rw [List.replicate_succ, run_cons]
      exact run_returned _ _ _
  · simp only [installNext, free, if_false, cas, einval]
    exact run_returned _ _ _

/-! ## What the table holds -/

theorem ipsOpen_devset {openArgs : OpenArgs} {closed : Device}
    (done : ipsOpen openArgs closed = (0, dev)) :
    dev.devset = ⟨some fun _ => [], closed.devset.whiteBlack⟩ := by
  have opens := opens_ipsOpen openArgs closed
  rw [done] at opens
  cases opens
  rfl

theorem progress_start (opened : Opened dev) : Progress jhash args ⟨dev, .idle⟩ := by
  rcases opened with ⟨openArgs, closed, unset, done⟩
  refine ⟨by simp, fun _ => ?_, fun inserted impossible => ?_⟩
  · rw [← unset]
    exact ipsOpen_devset done
  · simp [Install.inserted] at impossible

theorem Progress.congr {s' : Installing} (progress : Progress jhash args s)
    (failed : ∀ err, s'.pc = .leaving err → err ≠ 0) (same : s'.dev.devset = s.dev.devset)
    (inserted : s'.pc.inserted args.list.names = s.pc.inserted args.list.names) :
    Progress jhash args s' := by
  refine ⟨failed, ?_, ?_⟩
  · rw [inserted, same]
    exact progress.before
  · rw [inserted, same]
    exact progress.after

theorem progress_packet (p : Packet) (progress : Progress jhash args s) :
    Progress jhash args (installStep jhash args s (.packet p)) := by
  simp only [installStep]
  split
  · exact progress
  · exact progress.congr progress.failed rfl rfl

/-- The checks leave the set alone or set the mode over an empty table. -/
theorem progress_entered (dev : Device) (progress : Progress jhash args ⟨dev, .entered⟩) :
    Progress jhash args (installNext jhash args ⟨dev, .entered⟩) := by
  simp only [installNext]
  by_cases copied : copyError args = 0
  · simp only [copied, ne_eq, not_true_eq_false, if_false]
    rcases setMode_cases args.list dev.devset with
      ⟨failed, same⟩ | ⟨done, configured, table, before, after⟩
    · simp only [failed, same, if_false]
      apply progress.congr
      · rintro err ⟨⟩
        exact failed
      · rfl
      · rfl
    · have empty := progress.before rfl
      simp only [before, Devset.mk.injEq, Option.some.injEq] at empty
      simp only [done, after, if_true]
      refine ⟨by simp, fun impossible => ?_, ?_⟩
      · simp [Install.inserted] at impossible
      · intro inserted known
        simp only [Install.inserted, List.take_zero, Option.some.injEq] at known
        subst known
        rw [empty.1]
        exact ⟨_, rfl, configured, filed_empty, by simp [listed]⟩
  · simp only [copied, ne_eq, not_false_eq_true, if_true]
    apply progress.congr
    · rintro err ⟨⟩
      exact copied
    · rfl
    · rfl

theorem progress_inserting (allocated : ∀ ii, args.kmalloc ii = true)
    (ends : ∀ name ∈ args.list.names, Terminated name.toList) {ii : ℕ} (dev : Device)
    (inside : ii < args.list.names.length) (progress : Progress jhash args ⟨dev, .inserting ii⟩) :
    Progress jhash args
      ⟨{ dev with
          devset := insertName jhash (args.kmalloc ii) (args.list.names.drop ii) dev.devset },
        .inserting (ii + 1)⟩ := by
  rcases progress.after _ rfl with ⟨table, devset, configured, filed, stored⟩
  refine ⟨by simp, fun impossible => ?_, ?_⟩
  · simp [Install.inserted] at impossible
  · intro inserted known
    simp only [Install.inserted, Option.some.injEq] at known
    subst known
    rcases filed.addName (ends _ (List.getElem_mem inside))
      ((args.list.names.drop (ii + 1)).flatMap Bytes.toList) with ⟨filedAfter, storedAfter⟩
    refine ⟨_, ?_, configured, filedAfter, ?_⟩
    · simp only at devset
      simp only [devset, List.drop_eq_getElem_cons inside, allocated, insertName,
        Option.map_some, List.flatMap_cons]
    · intro name
      rw [storedAfter, Set.mem_insert_iff, stored, List.take_add_one,
        List.getElem?_eq_getElem inside]
      simp only [listed, List.map_append, List.mem_append, List.map_cons, List.map_nil,
        Option.toList_some, List.mem_singleton]
      exact or_comm

theorem progress_step (allocated : ∀ ii, args.kmalloc ii = true)
    (ends : ∀ name ∈ args.list.names, Terminated name.toList) (s : Installing)
    (event : InstallEvent) (progress : Progress jhash args s) :
    Progress jhash args (installStep jhash args s event) := by
  cases event with
  | packet p => exact progress_packet p progress
  | step =>
      rcases s with ⟨dev, pc⟩
      cases pc with
      | idle =>
          simp only [installStep, installNext, cas]
          split
          · exact progress.congr (by simp) rfl rfl
          · exact progress.congr (by simp [einval]) rfl (by simp [Install.inserted, einval])
      | entered => exact progress_entered dev progress
      | inserting ii =>
          simp only [installStep, installNext]
          split
          · next inside => exact progress_inserting allocated ends dev inside progress
          · next past =>
              apply progress.congr (by simp)
              · rfl
              · simp [Install.inserted, List.take_of_length_le (not_lt.mp past)]
      | leaving err =>
          have failed := progress.failed err rfl
          simp only [installStep, installNext]
          exact progress.congr (by simp) rfl (by simp [Install.inserted, failed])
      | returned err => exact progress

/-! ## What is captured -/

/-- With a black list, exactly the devices whose names are in the table are ignored. -/
theorem ignores_iff (black : args.whiteBlack = ipsBlack) (progress : Progress jhash args s)
    {bytes : List UInt8} (ends : Terminated bytes) :
    ∃ ignored, devsetIgnore jhash bytes s.dev.devset = some ignored ∧
      (ignored = true ↔ ∀ inserted, s.pc.inserted args.list.names = some inserted →
        cString bytes ∈ listed inserted) := by
  cases known : s.pc.inserted args.list.names with
  | none =>
      rw [progress.before known]
      exact ⟨true, devsetIgnore_of_none rfl bytes, by simp⟩
  | some inserted =>
      rcases progress.after inserted known with ⟨table, devset, configured, filed, stored⟩
      rcases devsetIgnore_of_filed filed configured ends with ⟨ignored, found, decided⟩
      refine ⟨ignored, devset ▸ found, ?_⟩
      rw [decided, stored, black]
      simp [ipsBlack, ipsWhite]

theorem spares_iff_timely (black : args.whiteBlack = ipsBlack) (progress : Progress jhash args s)
    (event : InstallEvent) (named : Named event) :
    Spares jhash args.list.names s event ↔ Timely args.list.names s event := by
  cases event with
  | step => exact Iff.rfl
  | packet p =>
      have decided : ∀ dev ∈ p.devices,
          (devsetIgnore jhash dev.name.toList s.dev.devset).isSome := by
        intro dev member
        rcases ignores_iff black progress (named dev member) with ⟨ignored, found, -⟩
        simp [found]
      have ignored : ignore jhash p.inDev p.outDev s.dev.devset ≠ some false ↔
          ∀ inserted, s.pc.inserted args.list.names = some inserted →
            ∀ dev ∈ p.devices, cString dev.name.toList ∈ listed inserted := by
        rw [Ne, Packet.ignore_eq_false_iff decided]
        constructor
        · intro all inserted known dev member
          rcases ignores_iff black progress (named dev member) with ⟨answer, found, told⟩
          apply told.mp _ inserted known
          cases answer with
          | true => rfl
          | false => exact absurd ⟨dev, member, found⟩ all
        · rintro all ⟨dev, member, passed⟩
          rcases ignores_iff black progress (named dev member) with ⟨answer, found, told⟩
          have yes : answer = true := told.mpr fun inserted known => all inserted known dev member
          simp [found, yes] at passed
      simp only [Spares, Timely, Packet.captured_iff, ← ignored]
      tauto

/-- No excluded packet is ever captured in exactly the runs in which each one that could be
queued is timely. -/
theorem spares_run_iff (black : args.whiteBlack = ipsBlack)
    (allocated : ∀ ii, args.kmalloc ii = true)
    (ends : ∀ name ∈ args.list.names, Terminated name.toList) (opened : Opened dev)
    {events : List InstallEvent} (named : ∀ event ∈ events, Named event) :
    Meets (installStep jhash args) (Spares jhash args.list.names) ⟨dev, .idle⟩ events ↔
      Meets (installStep jhash args) (Timely args.list.names) ⟨dev, .idle⟩ events := by
  apply @meets_iff_of_invariant _ _ _ _ (Progress jhash args) fun _ event => Named event
  · exact fun s event progress known => spares_iff_timely black progress event known
  · exact fun s event progress _ _ => progress_step allocated ends s event progress
  · exact progress_start opened
  · exact meets_of_mem (fun event member _ => named event member) _

end

/-! ## Two runs -/

/-- A UDP packet that came in by `eth0`. -/
def udpPacket : Packet :=
  { ipv6 := false
    cpu := 0
    skb :=
      { ipHdr := some ⟨4, ipprotoUdp, Bytes.zero 4, Bytes.zero 4⟩
        ipv6Hdr := none
        tcpHdr := none
        udpHdr := some ⟨0, 0⟩
        sctpHdr := none
        len := 28 }
    inDev := some ⟨eth0⟩
    outDev := none }

theorem terminated_udpPacket : ∀ dev ∈ udpPacket.devices, Terminated dev.name.toList := by
  decide

/-- The request to exclude that device. -/
def blackName : SetArgs :=
  { oneName with whiteBlack := ipsBlack }

/-- The packet comes between the mode and the name. -/
theorem udpPacket_captured :
    Opened openDevice ∧ blackName.whiteBlack = ipsBlack ∧
      (∀ name ∈ blackName.list.names, Terminated name.toList) ∧
      ¬Meets (installStep constHash blackName) (Spares constHash blackName.list.names)
        ⟨openDevice, .idle⟩ [.step, .step, .packet udpPacket] := by
  refine ⟨opened_openDevice, rfl, by decide, ?_⟩
  rintro ⟨-, -, spared, -⟩
  exact spared (by decide) ⟨_, _, rfl⟩

/-- The packet comes before the mode is set and again after the name is inserted. -/
theorem udpPacket_spared :
    Meets (installStep constHash blackName) (Spares constHash blackName.list.names)
      ⟨openDevice, .idle⟩ [.step, .packet udpPacket, .step, .step, .packet udpPacket] := by
  apply (spares_run_iff rfl (fun _ => rfl) (by decide) opened_openDevice ?_).mpr
  · refine ⟨trivial, ?_, trivial, trivial, ?_, trivial⟩
    · intro _ _ _ inserted impossible
      cases impossible
    · intro _ _ _ inserted known
      cases known
      decide
  · intro event member
    have each : event = .step ∨ event = .packet udpPacket := by
      simpa [or_comm, or_left_comm] using member
    rcases each with rfl | rfl
    · trivial
    · exact terminated_udpPacket

end Linguafranca.Ipshark
