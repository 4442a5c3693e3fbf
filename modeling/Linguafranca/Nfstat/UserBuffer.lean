import Linguafranca.Nfstat.Getcounter

/-!
# The buffer of a library call

`nfs_getcounter` of `nfs_api.c` puts its request, a `struct nfs_data`, at the start of the
buffer where its caller wants the counters; the handler reads the request there and copies the
reply over it. The library does not compare the length of the buffer with that of the request,
and the handler knows the length only from the request.

What the kernel decides outside the module is an argument: whether the caller's pages can be
accessed and read, whether there is memory, and how many bytes of the reply are left uncopied.
-/

namespace Linguafranca.Nfstat

open SearchTree Run

/-- The header of a request, as the kernel reads it. -/
structure NfsData where
  len : UInt64
  ip : NfsIpaddr

/-- The 32 bytes of the structure; its size is a multiple of eight. -/
def NfsData.toBytes (d : NfsData) (padding : Bytes 4) : List UInt8 :=
  Memory.digits 8 d.len.toNat ++ d.ip.toBytes ++ padding.1

/-- The header at the start of some memory. -/
def nfsDataAt (memory : Memory) : NfsData where
  len := UInt64.ofNat (memory.number 0 8)
  ip :=
    { len := memory 8
      padding := ⟨memory.span 9 3, Memory.length_span⟩
      addr := ⟨memory.span 12 16, Memory.length_span⟩ }

/-- The outcomes of the checks, the allocation and the copies of a request. -/
structure GetOutcome where
  accessOk : Bool
  copyOk : Bool
  allocated : Bool
  left : ℕ

/-- The caller's memory from `data` on, with the offsets and lengths of what was written. -/
structure UserData where
  memory : Memory
  written : List (ℕ × ℕ)

/-- Some bytes are written at an offset. -/
def UserData.copy (data : UserData) (offset : ℕ) (bytes : List UInt8) : UserData :=
  ⟨data.memory.store offset bytes, data.written ++ [(offset, bytes.length)]⟩

/-- `nfs_ioctl` at `NFS_CMD_GETCOUNTER`; there is no result when the kernel oopses. -/
def ioctlGetcounter (ncpu : ℕ) (state : NfsState) (outcome : GetOutcome) (data : UserData) :
    Option Int × UserData :=
  if !outcome.accessOk then (some (-efault), data)
  else if state.maxtype = 0 then (some (-eio), data)
  else if !outcome.copyOk then (some (-efault), data)
  else
    let d := nfsDataAt data.memory
    let call := getcounterPerip ncpu state.maxtype state.iptree d.ip d.len.toNat outcome.allocated
      outcome.left
    (call.ret.map fun ret => if ret then 0 else -eio,
      match call.copied with
      | none => data
      | some bytes => data.copy 0 bytes)

/-- The library call; `hasData` says whether `data` is a pointer at all, and `memory` what it
points to. The C library makes -1 of a negative result. -/
def nfsGetcounter (ncpu : ℕ) (state : NfsState) (outcome : GetOutcome) (padding : Bytes 4)
    (ip : Option NfsIpaddr) (hasData : Bool) (memory : Memory) (len : UInt64) :
    Option Int × UserData :=
  match ip with
  | none => (some (-1), ⟨memory, []⟩)
  | some ip =>
      if !hasData then (some (-1), ⟨memory, []⟩)
      else
        let request := UserData.copy ⟨memory, []⟩ 0 (NfsData.toBytes ⟨len, ip⟩ padding)
        let result := ioctlGetcounter ncpu state outcome request
        (result.1.map fun err => if err < 0 then -1 else err, result.2)

/-- What the caller may count on: nothing is written outside the buffer, and with success the
buffer holds the counters of the address. -/
structure StaysInside (ncpu : ℕ) (state : NfsState) (ip : Option NfsIpaddr) (len : UInt64)
    (call : Option Int × UserData) : Prop where
  inside : ∀ span ∈ call.2.written, span.1 + span.2 ≤ len.toNat
  reply : call.1 = some 0 → ∃ addr entry, ip = some addr ∧
    findipentry addr state.iptree = some entry ∧ 16 * state.maxtype.toNat ≤ len.toNat ∧
    call.2.memory.span 0 len.toNat = replyBytes ncpu state.maxtype entry len.toNat

/-- The call gets as far as the copy to the user, which is left unfinished by a number of bytes
that an `int` takes for zero. -/
structure CutShort (state : NfsState) (outcome : GetOutcome) (addr : NfsIpaddr) (len : UInt64) :
    Prop where
  accessOk : outcome.accessOk
  copyOk : outcome.copyOk
  types : state.maxtype ≠ 0
  room : 16 * state.maxtype.toNat ≤ len.toNat
  allocated : outcome.allocated
  found : findipentry addr state.iptree ≠ none
  unfinished : outcome.left ≠ 0
  truncated : outcome.left % 2 ^ 32 = 0

section Request

variable {memory : Memory} {padding : Bytes 4}

@[simp]
theorem length_nfsData_toBytes (d : NfsData) : (d.toBytes padding).length = 32 := by
  simp [NfsData.toBytes, padding.2]

/-- The handler reads the request that the library wrote. -/
theorem nfsDataAt_store (d : NfsData) : nfsDataAt (memory.store 0 (d.toBytes padding)) = d := by
  rcases d with ⟨len, ⟨tag, ⟨pad, padLength⟩, ⟨addr, addrLength⟩⟩⟩
  set d : NfsData := ⟨len, ⟨tag, ⟨pad, padLength⟩, ⟨addr, addrLength⟩⟩⟩ with request
  set written := memory.store 0 (d.toBytes padding)
  have size : written.span 0 8 = Memory.digits 8 len.toNat := by
    have part := @Memory.span_store memory 0 8 (d.toBytes padding) 0 (by simp)
    have text : ((d.toBytes padding).drop 0).take 8 = Memory.digits 8 len.toNat := by
      simp [NfsData.toBytes, request]
    exact part.trans text
  have address : written.span 8 20 = d.ip.toBytes := by
    have part := @Memory.span_store memory 0 20 (d.toBytes padding) 8 (by simp)
    have text : ((d.toBytes padding).drop 8).take 20 = d.ip.toBytes := by
      simp [NfsData.toBytes]
    exact part.trans text
  have fields : written.span 8 1 ++ (written.span 9 3 ++ written.span 12 16) =
      [tag] ++ (pad ++ addr) := by
    rw [← Memory.span_append, ← Memory.span_append]
    exact address
  rcases List.append_inj fields (by simp) with ⟨first, rest⟩
  rcases List.append_inj rest (by simp [padLength]) with ⟨second, third⟩
  have tagged : written 8 = tag := by simpa [Memory.span] using first
  have bound := len.toNat_lt
  have length : UInt64.ofNat (written.number 0 8) = len := by
    rw [Memory.number_of_span_eq_digits size, Nat.mod_eq_of_lt (by omega), UInt64.ofNat_toNat]
  simp only [nfsDataAt, length, tagged, second, third, request]

end Request

theorem int32_ofNat_eq_zero_iff (left : ℕ) : Int32.ofNat left = 0 ↔ left % 2 ^ 32 = 0 := by
  have zero : (0 : Int32) = Int32.ofNat 0 := rfl
  rw [zero, ← Int32.toBitVec_inj, Int32.toBitVec_ofNat', Int32.toBitVec_ofNat', ← BitVec.toNat_inj,
    BitVec.toNat_ofNat, BitVec.toNat_ofNat]

section Call

variable {ncpu : ℕ} {state : NfsState} {outcome : GetOutcome} {padding : Bytes 4}
  {memory : Memory} {addr : NfsIpaddr} {len : UInt64}

/-- The caller's memory when the handler is entered. -/
def requested (padding : Bytes 4) (memory : Memory) (addr : NfsIpaddr) (len : UInt64) : UserData :=
  UserData.copy ⟨memory, []⟩ 0 (NfsData.toBytes ⟨len, addr⟩ padding)

theorem ioctlGetcounter_of_refused (data : UserData)
    (refused : ¬(outcome.accessOk ∧ outcome.copyOk ∧ state.maxtype ≠ 0)) :
    ∃ err < 0, ioctlGetcounter ncpu state outcome data = (some err, data) := by
  simp only [ioctlGetcounter]
  cases access : outcome.accessOk with
  | false => exact ⟨-efault, by decide, rfl⟩
  | true =>
      by_cases unset : state.maxtype = 0
      · exact ⟨-eio, by decide, by simp [unset]⟩
      · cases copy : outcome.copyOk with
        | false => exact ⟨-efault, by decide, by simp [unset]⟩
        | true => exact absurd ⟨access, copy, unset⟩ refused

theorem ioctlGetcounter_of_admitted (data : UserData) (access : outcome.accessOk)
    (copy : outcome.copyOk) (types : state.maxtype ≠ 0) :
    ioctlGetcounter ncpu state outcome data =
      let d := nfsDataAt data.memory
      let call := getcounterPerip ncpu state.maxtype state.iptree d.ip d.len.toNat
        outcome.allocated outcome.left
      (call.ret.map fun ret => if ret then 0 else -eio,
        match call.copied with
        | none => data
        | some bytes => data.copy 0 bytes) := by
  simp [ioctlGetcounter, access, copy, types]

/-- A call that copies nothing to the user does not succeed. -/
theorem nfsGetcounter_cases :
    let call := nfsGetcounter ncpu state outcome padding (some addr) true memory len
    let request := requested padding memory addr len
    (call.1 ≠ some 0 ∧ call.2 = request ∧ ¬CutShort state outcome addr len) ∨
      ∃ entry, (outcome.accessOk ∧ outcome.copyOk ∧ state.maxtype ≠ 0 ∧
          16 * state.maxtype.toNat ≤ len.toNat ∧ outcome.allocated) ∧
        findipentry addr state.iptree = some entry ∧
        call = (some (if Int32.ofNat outcome.left = 0 then 0 else -1),
          request.copy 0 ((replyBytes ncpu state.maxtype entry len.toNat).take
            (len.toNat - outcome.left))) := by
  intro call request
  have read : nfsDataAt request.memory = ⟨len, addr⟩ := nfsDataAt_store _
  have unfolded : call =
      ((ioctlGetcounter ncpu state outcome request).1.map (fun err => if err < 0 then -1 else err),
        (ioctlGetcounter ncpu state outcome request).2) := rfl
  clear_value request call
  by_cases admitted : outcome.accessOk ∧ outcome.copyOk ∧ state.maxtype ≠ 0
  · rcases admitted with ⟨access, copy, types⟩
    rw [ioctlGetcounter_of_admitted request access copy types, read] at unfolded
    dsimp only at unfolded
    rcases @getcounterPerip_cases ncpu state.maxtype state.iptree addr len.toNat
      outcome.allocated outcome.left with
        ⟨ret, copied, early⟩ | ⟨entry, room, allocated, found, ret, copied⟩
    · left
      rw [copied] at unfolded
      subst unfolded
      refine ⟨?_, rfl, ?_⟩
      · intro success
        rcases Option.map_eq_some_iff.mp success with ⟨err, returned, zero⟩
        rcases Option.map_eq_some_iff.mp returned with ⟨fine, result, rfl⟩
        cases fine with
        | false => simp [eio] at zero
        | true => exact ret result
      · intro cut
        rcases early with small | missing | unknown
        · exact absurd cut.room (not_le.mpr small)
        · simpa [missing] using cut.allocated
        · exact cut.found unknown
    · right
      refine ⟨entry, ⟨access, copy, types, room, allocated⟩, found, ?_⟩
      rw [unfolded, ret, copied]
      by_cases finished : Int32.ofNat outcome.left = 0
      · simp [finished]
      · simp [finished, eio]
  · rcases @ioctlGetcounter_of_refused ncpu state outcome request admitted with
      ⟨err, negative, refused⟩
    left
    rw [refused] at unfolded
    subst unfolded
    refine ⟨by simp [negative], rfl, ?_⟩
    intro cut
    exact admitted ⟨cut.accessOk, cut.copyOk, cut.types⟩

theorem requested_written : (requested padding memory addr len).written = [(0, 32)] := by
  simp [requested, UserData.copy]

/-- A long enough buffer has room for request and reply, and with all bytes copied it holds the
reply. -/
theorem staysInside_of_room (room : 32 ≤ len.toNat) (whole : ¬CutShort state outcome addr len) :
    StaysInside ncpu state (some addr) len
      (nfsGetcounter ncpu state outcome padding (some addr) true memory len) := by
  rcases @nfsGetcounter_cases ncpu state outcome padding memory addr len with
    ⟨failed, call, -⟩ | ⟨entry, ⟨accessOk, copyOk, types, fits, allocated⟩, found, call⟩
  · refine ⟨?_, fun success => absurd success failed⟩
    intro span member
    rw [call, requested_written, List.mem_singleton] at member
    subst member
    simpa using room
  · have size := @length_replyBytes ncpu entry state.maxtype len.toNat fits
    rw [call]
    constructor
    · intro span member
      simp only [UserData.copy, requested_written, List.mem_append, List.mem_singleton] at member
      rcases member with rfl | rfl
      · simpa using room
      · simp only [List.length_take, size]
        omega
    · intro success
      have finished : Int32.ofNat outcome.left = 0 := by
        by_contra unfinished
        simp [unfinished] at success
      have all : outcome.left = 0 := by
        by_contra unfinished
        exact whole ⟨accessOk, copyOk, types, fits, allocated, by simp [found], unfinished,
          (int32_ofNat_eq_zero_iff _).mp finished⟩
      refine ⟨addr, entry, rfl, found, fits, ?_⟩
      have stored := @Memory.span_store (requested padding memory addr len).memory 0 len.toNat
        (replyBytes ncpu state.maxtype entry len.toNat) 0 (by omega)
      have entire : (replyBytes ncpu state.maxtype entry len.toNat).take len.toNat =
          replyBytes ncpu state.maxtype entry len.toNat := List.take_of_length_le (by omega)
      simp only [UserData.copy, all, Nat.sub_zero, entire]
      exact stored.trans entire

/-- The request does not fit into a shorter buffer. -/
theorem room_of_staysInside (stays : StaysInside ncpu state (some addr) len
    (nfsGetcounter ncpu state outcome padding (some addr) true memory len)) : 32 ≤ len.toNat := by
  have request : (0, 32) ∈
      (nfsGetcounter ncpu state outcome padding (some addr) true memory len).2.written := by
    rcases @nfsGetcounter_cases ncpu state outcome padding memory addr len with
      ⟨-, call, -⟩ | ⟨entry, -, -, call⟩
    · simp [call, requested_written]
    · simp [call, UserData.copy, requested_written]
  simpa using stays.inside _ request

/-- A call cut short leaves the last byte as it found it. -/
theorem CutShort.last_byte (cut : CutShort state outcome addr len) (fits : outcome.left ≤ len.toNat)
    (stays : StaysInside ncpu state (some addr) len
      (nfsGetcounter ncpu state outcome padding (some addr) true memory len)) :
    ∃ entry, findipentry addr state.iptree = some entry ∧
      memory (len.toNat - 1) =
        (replyBytes ncpu state.maxtype entry len.toNat).getD (len.toNat - 1) 0 := by
  have unfinished := cut.unfinished
  have truncated := cut.truncated
  have long : 2 ^ 32 ≤ len.toNat := by omega
  rcases @nfsGetcounter_cases ncpu state outcome padding memory addr len with
    ⟨-, -, reached⟩ | ⟨entry, -, found, call⟩
  · exact absurd cut reached
  · have size := @length_replyBytes ncpu entry state.maxtype len.toNat cut.room
    have success : Int32.ofNat outcome.left = 0 := (int32_ofNat_eq_zero_iff _).mpr truncated
    rw [call] at stays
    rcases stays.reply (by simp [success]) with ⟨_, other, ⟨rfl⟩, otherFound, -, reply⟩
    obtain rfl : entry = other := by simpa [found] using otherFound
    refine ⟨entry, found, ?_⟩
    have untouched : (requested padding memory addr len).memory (len.toNat - 1) =
        memory (len.toNat - 1) := by
      simp only [requested, UserData.copy]
      apply Memory.store_of_le
      simp only [length_nfsData_toBytes]
      omega
    set copied := (replyBytes ncpu state.maxtype entry len.toNat).take (len.toNat - outcome.left)
    have beyond : 0 + copied.length ≤ len.toNat - 1 := by
      simp only [copied, List.length_take]
      omega
    set final := (requested padding memory addr len).copy 0 copied
    calc
      memory (len.toNat - 1)
      _ = final.memory (len.toNat - 1) := by
        rw [← untouched]
        exact (Memory.store_of_le beyond).symm
      _ = (final.memory.span 0 len.toNat).getD (len.toNat - 1) 0 := by
        simp [Memory.span, show 0 < len.toNat by omega]
      _ = (replyBytes ncpu state.maxtype entry len.toNat).getD (len.toNat - 1) 0 := by
        rw [reply]

/-- Whatever is in the buffer, the call stays inside it exactly if the buffer has room for a
`struct nfs_data` and the copy to the user is not cut short. -/
theorem staysInside_iff (ncpu : ℕ) (state : NfsState) (outcome : GetOutcome) (padding : Bytes 4)
    (ip : Option NfsIpaddr) (hasData : Bool) (len : UInt64) (fits : outcome.left ≤ len.toNat) :
    (∀ memory, StaysInside ncpu state ip len
        (nfsGetcounter ncpu state outcome padding ip hasData memory len)) ↔
      hasData = false ∨ ip = none ∨
        32 ≤ len.toNat ∧ ∀ addr, ip = some addr → ¬CutShort state outcome addr len := by
  cases ip with
  | none =>
      simp only [true_or, or_true, iff_true]
      intro memory
      refine ⟨by simp [nfsGetcounter], ?_⟩
      intro success
      simp [nfsGetcounter] at success
  | some addr =>
      cases hasData with
      | false =>
          simp only [true_or, iff_true]
          intro memory
          refine ⟨by simp [nfsGetcounter], ?_⟩
          intro success
          simp [nfsGetcounter] at success
      | true =>
          simp only [Bool.true_eq_false, reduceCtorEq, Option.some.injEq, forall_eq', false_or]
          constructor
          · intro stays
            refine ⟨room_of_staysInside (stays fun _ => 0), ?_⟩
            intro cut
            -- a last byte other than the one the reply would have
            let wanted := ((findipentry addr state.iptree).map fun entry =>
              (replyBytes ncpu state.maxtype entry len.toNat).getD (len.toNat - 1) 0).getD 0
            rcases cut.last_byte fits (stays fun _ => wanted + 1) with ⟨entry, found, last⟩
            have same : wanted + 1 = wanted := by
              simpa only [wanted, found, Option.map_some, Option.getD_some] using last
            have moved := congrArg UInt8.toNat same
            simp only [UInt8.toNat_add] at moved
            have bound := wanted.toNat_lt
            simp at moved
            omega
          · rintro ⟨room, whole⟩ memory
            exact staysInside_of_room room whole

end Call

/-- The handler is the one of the module's `ioctl`. -/
theorem ioctlGetcounter_fst (ncpu : ℕ) (state : NfsState) (outcome : GetOutcome)
    (data : UserData) :
    let d := nfsDataAt data.memory
    (ioctlGetcounter ncpu state outcome data).1 =
      (nfsIoctl ncpu ⟨true, outcome.accessOk, outcome.copyOk,
        .getcounter d.ip d.len.toNat outcome.allocated (Int32.ofNat outcome.left = 0)⟩ state).1 := by
  intro d
  by_cases unset : state.maxtype = 0
  · cases access : outcome.accessOk
    · simp [ioctlGetcounter, nfsIoctl, access]
    · simp [ioctlGetcounter, nfsIoctl, access, unset, NfsCmd.needsInit]
  · rcases @getcounterPerip_refines ncpu state.maxtype state.iptree d.ip d.len.toNat outcome.left
      outcome.allocated with ⟨ret, -⟩
    simp only [ioctlGetcounter, nfsIoctl, nfsSwitch, NfsCmd.needsInit, unset, and_false, if_false]
    cases access : outcome.accessOk
    · simp
    · cases copy : outcome.copyOk
      · simp
      · simp only [Bool.not_true, Bool.false_eq_true, if_false, if_true]
        have ret' := congrArg (Option.map fun ret => if ret then (0 : Int) else -eio) ret
        refine ret'.trans ?_
        cases nfsGetcounterPerip ncpu state.maxtype state.iptree d.ip d.len.toNat
          outcome.allocated (decide (Int32.ofNat outcome.left = 0)) with
        | fault => rfl
        | refused => rfl
        | done vectors copied => rfl

/-! ## A caller who asks for one type -/

/-- 10.0.0.1 is counted under one type. -/
def counterRun : List (NfsEvent 1) :=
  [.request (.init 1), .request (.addip privateIp true .none)]

/-- Everything succeeds. -/
def smooth : GetOutcome where
  accessOk := true
  copyOk := true
  allocated := true
  left := 0

theorem staysInside_for_counterRun :
    StaysInside 1 (run nfsStep .init counterRun) (some privateIp) 32
      (nfsGetcounter 1 (run nfsStep .init counterRun) smooth (Bytes.zero 4) (some privateIp) true
        (fun _ => 255) 32) := by
  have stays := staysInside_iff 1 (run nfsStep .init counterRun) smooth (Bytes.zero 4)
    (some privateIp) true 32 (by decide)
  apply stays.mpr
  refine Or.inr (Or.inr ⟨by decide, ?_⟩)
  intro addr _ cut
  exact cut.unfinished rfl

/-- The vector would fit into sixteen bytes. -/
theorem sixteenBytes_not_staysInside :
    ¬∀ (ncpu : ℕ) (state : NfsState) (outcome : GetOutcome) (padding : Bytes 4)
      (ip : Option NfsIpaddr) (hasData : Bool) (memory : Memory) (len : UInt64),
      outcome.left ≤ len.toNat →
        StaysInside ncpu state ip len
          (nfsGetcounter ncpu state outcome padding ip hasData memory len) := by
  intro stays
  have call := stays 1 (run nfsStep .init counterRun) smooth (Bytes.zero 4) (some privateIp) true
    (fun _ => 0) 16 (by decide)
  have room := room_of_staysInside call
  revert room
  decide

end Linguafranca.Nfstat
