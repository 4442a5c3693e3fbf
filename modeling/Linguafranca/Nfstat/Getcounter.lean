import Linguafranca.Nfstat.Slots
import Linguafranca.Support.Memory

/-!
# The reply to `NFS_CMD_GETCOUNTER`

`nfs_getcounter_perip` with everything it does to memory and to `iptreelock`. It allocates as
many bytes as the caller asks for, clears them, and only then looks whether there are any; with
them every exit gives back what was taken. What is left of the copy to the user comes as a
count that is stored in an `int`.
-/

namespace Linguafranca.Nfstat

open SearchTree Run

/-! ## The reply in memory -/

/-- A slot in memory, two numbers of eight bytes. -/
def NfsCounterVector.toBytes (vector : NfsCounterVector) : List UInt8 :=
  Memory.digits 8 vector.number.toNat ++ Memory.digits 8 vector.bytes.toNat

@[simp]
theorem length_vector_toBytes (vector : NfsCounterVector) : vector.toBytes.length = 16 := by
  simp [NfsCounterVector.toBytes]

/-- The vectors of an entry, and zeros up to the length of the reply. -/
def replyBytes (ncpu : ℕ) (maxtype : UInt8) (entry : IpCounterEntry) (len : ℕ) : List UInt8 :=
  ((List.range maxtype.toNat).map (sumCounter ncpu entry)).flatMap NfsCounterVector.toBytes ++
    List.replicate (len - 16 * maxtype.toNat) 0

/-- What a call does outside its own variables. -/
inductive GetAct where
  | vmalloc (len : ℕ) (allocated : Bool)
  | memset (count : ℕ)
  | readLock
  | findipentry
  /-- Slot `i` of one CPU is read. -/
  | slot (entry : IpCounterEntry) (cpu i : ℕ)
  | memcpy (offset count : ℕ)
  | readUnlock
  | copyToUser (count : ℕ)
  | vfree

/-- What a call does, the bytes that reach the user, and what it returns unless it oopses. -/
structure GetCall where
  acts : List GetAct
  copied : Option (List UInt8)
  ret : Option Bool

/-- The loop over the types from `i` on: a vector is stored at `tmp`, which advances. -/
def replyLoop (ncpu : ℕ) (entry : IpCounterEntry) :
    ℕ → ℕ → ℕ → List UInt8 → List GetAct × List UInt8
  | 0, _, _, buf => ([], buf)
  | types + 1, i, tmp, buf =>
      let v := (sumCounter ncpu entry i).toBytes
      let later := replyLoop ncpu entry types (i + 1) (tmp + v.length)
        (buf.take tmp ++ v ++ buf.drop (tmp + v.length))
      ((List.range ncpu).map (fun cpu => .slot entry cpu i) ++ .memcpy tmp v.length :: later.1,
        later.2)

/-- The steps of `nfs_getcounter_perip` and the bytes of its reply; `left` is what `copy_to_user`
returns, the number of bytes it did not copy. -/
def getcounterPerip (ncpu : ℕ) (maxtype : UInt8) (iptree : BinaryTree IpCounterEntry)
    (ip : NfsIpaddr) (len : ℕ) (allocated : Bool) (left : ℕ) : GetCall :=
  if len < 16 * maxtype.toNat then ⟨[], none, some false⟩
  else
    let start := [.vmalloc len allocated, .memset len]
    if !allocated then
      -- clearing the bytes behind NULL is an oops, if there are any
      ⟨start, none, if 0 < len then none else some false⟩
    else
      match findipentry ip iptree with
      | none => ⟨start ++ [.readLock, .findipentry, .readUnlock, .vfree], none, some false⟩
      | some entry =>
          let reply := replyLoop ncpu entry maxtype.toNat 0 0 (List.replicate len 0)
          ⟨start ++ [.readLock, .findipentry] ++ reply.1 ++ [.readUnlock, .copyToUser len, .vfree],
            some (reply.2.take (len - left)), some (Int32.ofNat left = 0)⟩

section Reply

variable {ncpu : ℕ} {entry : IpCounterEntry} {maxtype : UInt8} {len : ℕ}

theorem replyLoop_snd {types i tmp : ℕ} {front zeros : List UInt8} (start : front.length = tmp)
    (room : 16 * types ≤ zeros.length) :
    (replyLoop ncpu entry types i tmp (front ++ zeros)).2 =
      front ++ ((List.range' i types).map (sumCounter ncpu entry)).flatMap
        NfsCounterVector.toBytes ++ zeros.drop (16 * types) := by
  induction types generalizing i tmp front zeros with
  | zero => simp [replyLoop]
  | succ types ih =>
      subst start
      have stored : (front ++ zeros).take front.length ++ (sumCounter ncpu entry i).toBytes ++
          (front ++ zeros).drop (front.length + (sumCounter ncpu entry i).toBytes.length) =
          (front ++ (sumCounter ncpu entry i).toBytes) ++ zeros.drop 16 := by
        simp [List.drop_append]
      rw [replyLoop]
      simp only [stored]
      rw [ih (by simp) (by simp only [List.length_drop]; omega)]
      have advance : 16 + 16 * types = 16 * (types + 1) := by omega
      simp only [List.range'_succ, List.map_cons, List.flatMap_cons, List.append_assoc,
        List.drop_drop, advance]

theorem replyLoop_reply (enough : 16 * maxtype.toNat ≤ len) :
    (replyLoop ncpu entry maxtype.toNat 0 0 (List.replicate len 0)).2 =
      replyBytes ncpu maxtype entry len := by
  have whole := @replyLoop_snd ncpu entry maxtype.toNat 0 0 [] (List.replicate len 0) rfl
    (by simpa using enough)
  simpa [replyBytes, List.range_eq_range'] using whole

theorem length_replyBytes (enough : 16 * maxtype.toNat ≤ len) :
    (replyBytes ncpu maxtype entry len).length = len := by
  have vectors : ∀ indices : List ℕ, ((indices.map (sumCounter ncpu entry)).flatMap
      NfsCounterVector.toBytes).length = 16 * indices.length := by
    intro indices
    induction indices with
    | nil => rfl
    | cons i indices ih =>
        simp only [List.map_cons, List.flatMap_cons, List.length_append, ih,
          length_vector_toBytes, List.length_cons]
        omega
  simp only [replyBytes, List.length_append, vectors, List.length_range, List.length_replicate]
  omega

end Reply

/-! ## What a call holds -/

/-- The size of the buffer, if there is one, and whether `iptreelock` is held for reading. -/
structure Holding where
  buffer : Option ℕ
  locked : Bool
deriving DecidableEq

/-- Neither a buffer nor the lock is held. -/
def Holding.nothing : Holding :=
  ⟨none, false⟩

/-- What is held after an act. There is nothing after an access out of place, and nothing after
giving back what is not held or taking it twice. -/
def Holding.act (held : Holding) : GetAct → Option Holding
  | .vmalloc len allocated =>
      if held.buffer = none then some { held with buffer := if allocated then some len else none }
      else none
  | .memset count => if count ≤ held.buffer.getD 0 then some held else none
  | .readLock => if held.locked then none else some { held with locked := true }
  | .findipentry => if held.locked then some held else none
  | .slot entry cpu i =>
      if held.locked ∧ i < (entry.counter cpu).length then some held else none
  | .memcpy offset count => if offset + count ≤ held.buffer.getD 0 then some held else none
  | .readUnlock => if held.locked then some { held with locked := false } else none
  | .copyToUser count => if count ≤ held.buffer.getD 0 then some held else none
  | .vfree => if held.buffer = none then none else some { held with buffer := none }

/-- What is held after some steps; `none` if one of them is not allowed. -/
def Holding.replay (held : Holding) (acts : List GetAct) : Option Holding :=
  acts.foldlM Holding.act held

/-- The call accesses nothing out of place and gives everything back, and a call that is
refused writes nothing to the user. -/
structure FailsCleanly (state : NfsState) (ip : NfsIpaddr) (len : ℕ)
    (allocated : Bool) (call : GetCall) : Prop where
  settles : Holding.nothing.replay call.acts = some .nothing
  returns : call.ret ≠ none
  refused : len < 16 * state.maxtype.toNat ∨ allocated = false ∨
    findipentry ip state.iptree = none → call.ret = some false ∧ call.copied = none

section Holding

variable {ncpu : ℕ} {entry : IpCounterEntry} {len : ℕ} {held : Holding}

theorem replay_append (first second : List GetAct) :
    held.replay (first ++ second) = (held.replay first).bind (·.replay second) := by
  rw [Holding.replay, List.foldlM_append]
  rfl

theorem replay_eq_self {acts : List GetAct} (kept : ∀ act ∈ acts, held.act act = some held) :
    held.replay acts = some held := by
  induction acts with
  | nil => rfl
  | cons act acts ih =>
      have rest := ih fun later member => kept later (List.mem_cons_of_mem act member)
      rw [Holding.replay, List.foldlM_cons, kept act List.mem_cons_self]
      exact rest

/-- With room for the vectors and a slot for each type, the loop stays in place. -/
theorem act_of_mem_replyLoop {types i tmp : ℕ} {buf : List UInt8} {act : GetAct}
    (member : act ∈ (replyLoop ncpu entry types i tmp buf).1) (room : tmp + 16 * types ≤ len)
    (slots : ∀ cpu, i + types ≤ (entry.counter cpu).length) :
    (⟨some len, true⟩ : Holding).act act = some ⟨some len, true⟩ := by
  induction types generalizing i tmp buf with
  | zero => simp [replyLoop] at member
  | succ types ih =>
      simp only [replyLoop, List.mem_append, List.mem_map, List.mem_range, List.mem_cons] at member
      rcases member with ⟨cpu, -, rfl⟩ | rfl | later
      · have inside : i < (entry.counter cpu).length := by
          have := slots cpu
          omega
        simp [Holding.act, inside]
      · have inside : tmp + 16 ≤ len := by omega
        simp [Holding.act, inside]
      · apply ih later
        · simp only [length_vector_toBytes]
          omega
        · intro cpu
          have := slots cpu
          omega

theorem replay_replyLoop {types : ℕ} {buf : List UInt8} (room : 16 * types ≤ len)
    (slots : ∀ cpu, types ≤ (entry.counter cpu).length) :
    (⟨some len, true⟩ : Holding).replay (replyLoop ncpu entry types 0 0 buf).1 =
      some ⟨some len, true⟩ := by
  apply replay_eq_self
  intro act member
  apply act_of_mem_replyLoop member
  · omega
  · simpa using slots

end Holding

/-! ## Failing cleanly -/

variable {ncpu : ℕ} {state : NfsState}

theorem Sized.cleanly_iff (sized : Sized state) (ip : NfsIpaddr) (len : ℕ)
    (allocated : Bool) (left : ℕ) :
    FailsCleanly state ip len allocated
        (getcounterPerip ncpu state.maxtype state.iptree ip len allocated left) ↔
      len < 16 * state.maxtype.toNat ∨ allocated ∨ len = 0 := by
  by_cases small : len < 16 * state.maxtype.toNat
  · simp only [getcounterPerip, small, true_or, iff_true]
    exact ⟨rfl, by simp, fun _ => ⟨rfl, rfl⟩⟩
  · cases allocated with
    | false =>
        by_cases empty : len = 0
        · subst empty
          simp only [getcounterPerip, if_neg small, or_true, iff_true]
          exact ⟨rfl, by simp, fun _ => ⟨rfl, rfl⟩⟩
        · have some_bytes : 0 < len := by omega
          simp only [small, empty, or_self, Bool.false_eq_true, iff_false]
          intro clean
          apply clean.returns
          simp [getcounterPerip, small, some_bytes]
    | true =>
        simp only [true_or, or_true, iff_true]
        cases found : findipentry ip state.iptree with
        | none =>
            simp only [getcounterPerip, if_neg small, found]
            refine ⟨?_, by simp, fun _ => ⟨rfl, rfl⟩⟩
            simp [Holding.replay, Holding.act, Holding.nothing]
        | some entry =>
            have slots := sized.slots entry (mem_of_find found)
            have loop := @replay_replyLoop ncpu entry len state.maxtype.toNat
              (List.replicate len 0) (by omega) (fun cpu => (slots cpu).ge)
            simp only [getcounterPerip, if_neg small, found, Bool.not_true, Bool.false_eq_true,
              if_false]
            refine ⟨?_, by simp, ?_⟩
            · have start : Holding.nothing.replay
                  ([.vmalloc len true, .memset len] ++ [.readLock, .findipentry]) =
                    some ⟨some len, true⟩ := by
                simp [Holding.replay, Holding.act, Holding.nothing]
              have close : (⟨some len, true⟩ : Holding).replay
                  [.readUnlock, .copyToUser len, .vfree] = some .nothing := by
                simp [Holding.replay, Holding.act, Holding.nothing]
              rw [replay_append, replay_append, start, Option.bind_some, loop, Option.bind_some,
                close]
            · intro refused
              simp [small, found] at refused

/-- Whatever happened before, a call fails cleanly unless it clears a buffer that it did not
get. -/
theorem failsCleanly_iff (events : List (NfsEvent ncpu)) (ip : NfsIpaddr) (len : ℕ)
    (allocated : Bool) (left : ℕ) :
    let state := run nfsStep .init events
    FailsCleanly state ip len allocated
        (getcounterPerip ncpu state.maxtype state.iptree ip len allocated left) ↔
      len < 16 * state.maxtype.toNat ∨ allocated ∨ len = 0 := by
  have sized := @invariant_of_step _ _ nfsStep Sized
    (fun state event sized => sized_nfsStep sized event) _ events sized_init
  exact sized.cleanly_iff ip len allocated left

/-- With one type, sixteen bytes are asked for and there is no memory. -/
theorem outOfMemory_not_failsCleanly :
    ¬∀ (ncpu : ℕ) (events : List (NfsEvent ncpu)) (ip : NfsIpaddr) (len : ℕ) (allocated : Bool)
      (left : ℕ),
      let state := run nfsStep .init events
      FailsCleanly state ip len allocated
        (getcounterPerip ncpu state.maxtype state.iptree ip len allocated left) := by
  intro clean
  have call := clean 1 [.request (.init 1)] .zero 16 false 0
  exact call.returns rfl

/-! ## The handler -/

/-- A call that copies nothing to the user does not succeed. -/
theorem getcounterPerip_cases (maxtype : UInt8) (iptree : BinaryTree IpCounterEntry)
    (ip : NfsIpaddr) (len : ℕ) (allocated : Bool) (left : ℕ) :
    let call := getcounterPerip ncpu maxtype iptree ip len allocated left
    (call.ret ≠ some true ∧ call.copied = none ∧
        (len < 16 * maxtype.toNat ∨ allocated = false ∨ findipentry ip iptree = none)) ∨
      ∃ entry, 16 * maxtype.toNat ≤ len ∧ allocated ∧ findipentry ip iptree = some entry ∧
        call.ret = some (decide (Int32.ofNat left = 0)) ∧
        call.copied = some ((replyBytes ncpu maxtype entry len).take (len - left)) := by
  simp only [getcounterPerip]
  by_cases small : len < 16 * maxtype.toNat
  · left
    simp [small]
  · cases allocated with
    | false =>
        left
        by_cases empty : len = 0
        · subst empty
          simp only [if_neg small]
          simp
        · simp [small, Nat.pos_of_ne_zero empty]
    | true =>
        cases found : findipentry ip iptree with
        | none =>
            left
            simp [small]
        | some entry =>
            right
            have room : 16 * maxtype.toNat ≤ len := by omega
            refine ⟨entry, room, rfl, rfl, ?_⟩
            simp [small, replyLoop_reply room]

/-- What the call returns. -/
def GetcounterResult.ret : GetcounterResult → Option Bool
  | .fault => none
  | .refused => some false
  | .done _ copied => some copied

/-- The slots that it reports. -/
def GetcounterResult.vectors : GetcounterResult → Option (List NfsCounterVector)
  | .done vectors _ => some vectors
  | _ => none

/-- The steps of a call and its bytes end in what the handler learns from it. -/
theorem getcounterPerip_refines {maxtype : UInt8} {iptree : BinaryTree IpCounterEntry}
    {ip : NfsIpaddr} {len left : ℕ} {allocated : Bool} :
    let call := getcounterPerip ncpu maxtype iptree ip len allocated left
    let result := nfsGetcounterPerip ncpu maxtype iptree ip len allocated (Int32.ofNat left = 0)
    call.ret = result.ret ∧ call.copied = result.vectors.map fun vectors =>
      (vectors.flatMap NfsCounterVector.toBytes ++
        List.replicate (len - 16 * maxtype.toNat) 0).take (len - left) := by
  by_cases small : len < 16 * maxtype.toNat
  · simp [getcounterPerip, nfsGetcounterPerip, small, GetcounterResult.ret,
      GetcounterResult.vectors]
  · cases allocated with
    | false =>
        by_cases some_bytes : 0 < len
        · simp [getcounterPerip, nfsGetcounterPerip, small, some_bytes, GetcounterResult.ret,
            GetcounterResult.vectors]
        · simp [getcounterPerip, nfsGetcounterPerip, small, some_bytes, GetcounterResult.ret,
            GetcounterResult.vectors]
    | true =>
        cases found : findipentry ip iptree with
        | none =>
            simp [getcounterPerip, nfsGetcounterPerip, small, found, GetcounterResult.ret,
              GetcounterResult.vectors]
        | some entry =>
            have whole := @replyLoop_reply ncpu entry maxtype len (by omega)
            simp [getcounterPerip, nfsGetcounterPerip, small, found, GetcounterResult.ret,
              GetcounterResult.vectors, whole, replyBytes]

end Linguafranca.Nfstat
