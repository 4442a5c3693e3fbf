import Linguafranca.Ipshark.Framework
import Linguafranca.Support.Run

/-!
# What the reader asks for

The reader doubles its request after every fetch that filled it, without regard to the 1024
records that `fetch_info` grants at most. A request above that is refused from then on, as an
error only makes the reader ask again. The buffers are handled right whatever it asks for:
each is passed on once, and is as large as the request that fills it.
-/

namespace Linguafranca.Ipshark

open Run

/-- The reader comes to the call of `ips_fetch`. -/
def Asks (state : Option Reader) (malloc : Bool) (asked : Reader) : Prop :=
  ∃ r, state = some r ∧ r.ask malloc = some asked

/-! ## The size of the request -/

/-- The number of records that `fetch_info` takes. -/
def Granted (n : UInt32) : Prop :=
  1 ≤ n.toNat ∧ n.toNat ≤ 1024

instance (n : UInt32) : Decidable (Granted n) :=
  inferInstanceAs (Decidable (_ ∧ _))

/-- A fetch that succeeds gets at least one record and at most as many as are asked for. -/
def PossibleTurn (state : Option Reader) (turn : Turn) : Prop :=
  ∀ asked n, Asks state turn.malloc asked → turn.outcome = .got n → n ≠ 0 ∧ n ≤ asked.n

/-- The device refuses a request of another size. -/
def Refuses (state : Option Reader) (turn : Turn) : Prop :=
  ∀ asked, Asks state turn.malloc asked → ¬Granted asked.n →
    ∃ cleared, turn.outcome = .failed cleared

/-- Every later request is refused for its size. -/
def Stuck (state : Option Reader) : Prop :=
  state.isSome ∧ ∀ turns, Meets readerStep Refuses state turns →
    Meets readerStep (fun state turn => ∀ asked, Asks state turn.malloc asked → ¬Granted asked.n)
      state turns

/-- The next request is granted, and the reader is not stuck. -/
structure AsksGranted (state : Option Reader) : Prop where
  granted : ∀ asked, Asks state true asked → Granted asked.n
  free : ¬Stuck state

/-- A request that is filled is for at most half of what is granted. -/
def FillsHalf (state : Option Reader) (turn : Turn) : Prop :=
  ∀ asked, Asks state turn.malloc asked → turn.outcome = .got asked.n → asked.n.toNat ≤ 512

/-- The request that the reader makes next. -/
def Reader.pending (r : Reader) : ℕ :=
  if r.nextn = 0 then r.lastn.toNat else r.nextn.toNat

section Requests

variable {r asked : Reader} {malloc : Bool}

theorem ask_pending (small : r.pending < 2 ^ 32) (asks : r.ask malloc = some asked) :
    asked.n.toNat = r.pending ∧ asked.lastn = asked.n.toUInt64 := by
  simp only [Reader.ask] at asks
  split at asks
  · next fresh =>
      simp only [Reader.pending, if_neg fresh] at small ⊢
      split at asks
      · obtain rfl := Option.some.inj asks
        simp only [UInt64.toNat_toUInt32, and_true]
        exact Nat.mod_eq_of_lt small
      · simp at asks
  · next again =>
      simp only [Reader.pending, not_not.mp again, if_true] at small ⊢
      obtain rfl := Option.some.inj asks
      simp only [UInt64.toNat_toUInt32, and_true]
      exact Nat.mod_eq_of_lt small

theorem exists_ask (r : Reader) : ∃ asked, r.ask true = some asked := by
  simp only [Reader.ask]
  split
  · exact ⟨_, rfl⟩
  · exact ⟨_, rfl⟩

theorem toNat_nextRequest {n lastn : UInt32} :
    (nextRequest n lastn.toUInt64).toNat = max 16
      (if n.toNat < lastn.toNat / 4 then lastn.toNat / 2
        else if n = lastn then lastn.toNat * 2 else n.toNat) := by
  have bound := lastn.toNat_lt
  have quarter : n.toUInt64 < lastn.toUInt64 / 4 ↔ n.toNat < lastn.toNat / 4 := by
    rw [UInt64.lt_iff_toNat_lt, UInt64.toNat_div]
    rfl
  have full : n.toUInt64 = lastn.toUInt64 ↔ n = lastn := by
    rw [← UInt64.toNat_inj, ← UInt32.toNat_inj]
    rfl
  have half : (lastn.toUInt64 / 2).toNat = lastn.toNat / 2 := UInt64.toNat_div _ _
  have twice : (lastn.toUInt64 * 2).toNat = lastn.toNat * 2 := by
    rw [UInt64.toNat_mul]
    apply Nat.mod_eq_of_lt
    simp only [UInt32.toNat_toUInt64, UInt64.toNat_ofNat]
    omega
  simp only [nextRequest, quarter, full]
  generalize chosen : (if n.toNat < lastn.toNat / 4 then lastn.toUInt64 / 2
    else if n = lastn then lastn.toUInt64 * 2 else n.toUInt64) = nextn
  have value : nextn.toNat = if n.toNat < lastn.toNat / 4 then lastn.toNat / 2
      else if n = lastn then lastn.toNat * 2 else n.toNat := by
    rw [← chosen]
    split
    · exact half
    · split
      · exact twice
      · rfl
  rw [← value]
  split
  · next few =>
      have below : nextn.toNat < 16 := UInt64.lt_iff_toNat_lt.mp few
      exact (max_eq_left below.le).symm
  · next enough =>
      have above : (16 : UInt64).toNat ≤ nextn.toNat :=
        UInt64.le_iff_toNat_le.mp (UInt64.not_lt.mp enough)
      exact (max_eq_right above).symm

theorem pending_finish_failed (cleared : Bool) :
    (asked.finish (.failed cleared)).pending = asked.lastn.toNat :=
  rfl

theorem pending_finish_got (last : asked.lastn = asked.n.toUInt64) (n : UInt32) :
    (asked.finish (.got n)).pending = max 16
      (if n.toNat < asked.n.toNat / 4 then asked.n.toNat / 2
        else if n = asked.n then asked.n.toNat * 2 else n.toNat) := by
  have value := @toNat_nextRequest n asked.n
  rw [← last] at value
  rw [← value]
  have some : nextRequest n asked.lastn ≠ 0 := by
    intro zero
    simp only [zero, UInt64.toNat_zero] at value
    omega
  exact if_neg some

/-- After an answer to a granted request, the next one is granted unless the answer doubles
more than half of what is granted. -/
theorem pending_finish (last : asked.lastn = asked.n.toUInt64) (granted : Granted asked.n)
    {outcome : FetchOutcome} (possible : ∀ n, outcome = .got n → n ≠ 0 ∧ n ≤ asked.n) :
    1 ≤ (asked.finish outcome).pending ∧ (asked.finish outcome).pending < 2 ^ 32 ∧
      ((asked.finish outcome).pending ≤ 1024 ↔
        (outcome = .got asked.n → asked.n.toNat ≤ 512)) := by
  rcases granted with ⟨positive, small⟩
  cases outcome with
  | failed cleared =>
      rw [pending_finish_failed, last]
      simp only [UInt32.toNat_toUInt64, reduceCtorEq, false_implies, iff_true]
      omega
  | got n =>
      have upper : n.toNat ≤ asked.n.toNat := UInt32.le_iff_toNat_le.mp (possible n rfl).2
      rw [pending_finish_got last]
      simp only [FetchOutcome.got.injEq]
      by_cases full : n = asked.n
      · subst full
        simp only [if_true, forall_const]
        rw [if_neg (by omega)]
        omega
      · simp only [full, if_false, false_implies, iff_true]
        split
        · omega
        · omega

end Requests

section Steps

variable {r asked : Reader} {turn : Turn}

/-- The next request would be granted if it did not wrap around. -/
def Steady (state : Option Reader) : Prop :=
  ∀ r, state = some r → 1 ≤ r.pending ∧ r.pending ≤ 1024

theorem asksGranted_none : AsksGranted none where
  granted := by
    rintro asked ⟨r, none, -⟩
    simp at none
  free := by
    rintro ⟨some, -⟩
    simp at some

theorem asksGranted_iff (small : r.pending < 2 ^ 32) :
    AsksGranted (some r) ↔ 1 ≤ r.pending ∧ r.pending ≤ 1024 := by
  rcases exists_ask r with ⟨asked, asks⟩
  have size := (ask_pending small asks).1
  constructor
  · intro asksGranted
    rw [← size]
    exact asksGranted.granted asked ⟨r, rfl, asks⟩
  · intro inside
    rw [← size] at inside
    constructor
    · rintro other ⟨_, same, asksOther⟩
      obtain rfl := Option.some.inj same
      obtain rfl := Option.some.inj (asks.symm.trans asksOther)
      exact inside
    · -- the request that is pending is not refused
      rintro ⟨-, refused⟩
      have once : Meets readerStep Refuses (some r) [⟨true, .failed false⟩] :=
        ⟨fun _ _ _ => ⟨false, rfl⟩, trivial⟩
      exact (refused _ once).1 asked ⟨r, rfl, asks⟩ inside

theorem readerStep_of_ask (asks : r.ask turn.malloc = some asked) :
    readerStep (some r) turn = some (asked.finish turn.outcome) := by
  simp [readerStep, asks]

theorem readerStep_of_exit (ends : r.ask turn.malloc = none) :
    readerStep (some r) turn = none := by
  simp [readerStep, ends]

theorem steady_step {state : Option Reader} (steady : Steady state)
    (possible : PossibleTurn state turn) :
    (AsksGranted (readerStep state turn) ↔ FillsHalf state turn) ∧
      (FillsHalf state turn → Steady (readerStep state turn)) := by
  have vacuous (none_asked : ∀ asked, ¬Asks state turn.malloc asked) :
      FillsHalf state turn := by
    intro asked asks
    exact absurd asks (none_asked asked)
  cases state with
  | none =>
      have fills := vacuous (by
        rintro asked ⟨r, none, -⟩
        simp at none)
      simp only [fills, iff_true, true_implies]
      refine ⟨asksGranted_none, ?_⟩
      intro r none
      simp [readerStep] at none
  | some r =>
      cases asks : r.ask turn.malloc with
      | none =>
          have fills := vacuous (by
            rintro asked ⟨_, same, some⟩
            obtain rfl := Option.some.inj same
            simp [asks] at some)
          rw [readerStep_of_exit asks]
          simp only [fills, iff_true, true_implies]
          refine ⟨asksGranted_none, ?_⟩
          intro r none
          simp at none
      | some asked =>
          rcases steady r rfl with ⟨positive, small⟩
          rcases ask_pending (by omega) asks with ⟨size, last⟩
          have granted : Granted asked.n := by
            rw [Granted, size]
            exact ⟨positive, small⟩
          rcases pending_finish last granted
            (fun n => possible asked n ⟨r, rfl, asks⟩) with ⟨positive, wraps, exact_next⟩
          have fills : FillsHalf (some r) turn ↔
              (turn.outcome = .got asked.n → asked.n.toNat ≤ 512) := by
            constructor
            · intro fills
              exact fills asked ⟨r, rfl, asks⟩
            · rintro fills other ⟨_, same, asksOther⟩
              obtain rfl := Option.some.inj same
              obtain rfl := Option.some.inj (asks.symm.trans asksOther)
              exact fills
          rw [readerStep_of_ask asks, asksGranted_iff wraps, fills, ← exact_next]
          refine ⟨⟨fun both => both.2, fun upper => ⟨positive, upper⟩⟩, ?_⟩
          rintro upper _ same
          obtain rfl := Option.some.inj same
          exact ⟨positive, upper⟩

end Steps

/-- A reader that asks for too much asks for it for ever. -/
theorem stuck_of_large {r : Reader} (large : 1024 < r.pending) (small : r.pending < 2 ^ 32) :
    Stuck (some r) := by
  refine ⟨rfl, ?_⟩
  intro turns refuses
  apply @meets_of_invariant _ _ _ _ (fun state => ∀ later, state = some later →
    later.pending = r.pending) _ _ _ _ _ _ refuses
  · rintro state turn same refused later next
    cases state with
    | none => simp [readerStep] at next
    | some before =>
        have pending := same before rfl
        cases asks : before.ask turn.malloc with
        | none => simp [readerStep_of_exit asks] at next
        | some asked =>
            rcases ask_pending (by omega) asks with ⟨size, last⟩
            have denied : ¬Granted asked.n := by
              rintro ⟨-, upper⟩
              omega
            rcases refused asked ⟨before, rfl, asks⟩ denied with ⟨cleared, failed⟩
            rw [readerStep_of_ask asks, failed] at next
            obtain rfl := Option.some.inj next
            rw [pending_finish_failed, last, UInt32.toNat_toUInt64, size, pending]
  · rintro state turn same - asked ⟨before, rfl, asks⟩ ⟨-, upper⟩
    have pending := same before rfl
    have size := (ask_pending (by omega) asks).1
    omega
  · rintro later same
    rw [Option.some.inj same]

/-- The reader asks for what is granted, and is never stuck, in exactly the runs in which no
request for more than half of it is filled. -/
theorem asksGranted_run_iff {turns : List Turn}
    (possible : Meets readerStep PossibleTurn (some Reader.init) turns) :
    Always readerStep AsksGranted (some Reader.init) turns ↔
      Meets readerStep FillsHalf (some Reader.init) turns := by
  have initially : 1 ≤ Reader.init.pending ∧ Reader.init.pending ≤ 1024 := by decide
  apply @always_iff_meets_of_invariant _ _ _ _ _ Steady PossibleTurn
  · intro state turn steady possible _
    exact (steady_step steady possible).1
  · intro state turn steady possible fills
    exact (steady_step steady possible).2 fills
  · intro r same
    obtain rfl := Option.some.inj same
    exact initially
  · exact (asksGranted_iff (by decide)).mpr initially
  · exact possible

/-- A full buffer, a timeout and a few records. -/
def calmTurns : List Turn :=
  [⟨true, .got 16⟩, ⟨true, .failed true⟩, ⟨true, .got 3⟩]

theorem calmTurns_granted : Always readerStep AsksGranted (some Reader.init) calmTurns := by
  apply (asksGranted_run_iff _).mpr
  · refine ⟨?_, ?_, ?_, trivial⟩
    · rintro asked ⟨r, same, asks⟩ -
      obtain rfl := Option.some.inj same
      obtain rfl := Option.some.inj asks
      decide
    · rintro asked - full
      cases full
    · rintro asked ⟨r, same, asks⟩ -
      obtain rfl := Option.some.inj same
      obtain rfl := Option.some.inj asks
      decide
  · refine ⟨?_, ?_, ?_, trivial⟩
    · rintro asked n ⟨r, same, asks⟩ got
      obtain rfl := Option.some.inj same
      obtain rfl := Option.some.inj asks
      cases got
      decide
    · rintro asked n - got
      cases got
    · rintro asked n ⟨r, same, asks⟩ got
      obtain rfl := Option.some.inj same
      obtain rfl := Option.some.inj asks
      cases got
      decide

/-- Every buffer comes back full. -/
def fullTurns : List Turn :=
  [16, 32, 64, 128, 256, 512, 1024].map fun n => ⟨true, .got n⟩

theorem fullTurns_not_granted : Meets readerStep PossibleTurn (some Reader.init) fullTurns ∧
    ¬Always readerStep AsksGranted (some Reader.init) fullTurns := by
  constructor
  · refine ⟨?_, ?_, ?_, ?_, ?_, ?_, ?_, trivial⟩ <;>
    · rintro asked n ⟨r, same, asks⟩ got
      obtain rfl := Option.some.inj same
      obtain rfl := Option.some.inj asks
      cases got
      decide
  · intro granted
    have last := (last_of_always granted).granted _ ⟨_, rfl, rfl⟩
    exact absurd last (by decide)

/-! ## The buffers -/

/-- At the call of `ips_fetch` the array is a buffer with room for the request that was not
passed on, and the only such one. -/
def Owned (asked : Reader) : Prop :=
  ∃ b, asked.array = some b ∧ asked.buffers[b]? = some (asked.n.toNat * sizeofIpKeyInfo) ∧
    b ∉ asked.handed ∧ ∀ other < asked.buffers.length, other ∉ asked.handed → other = b

/-- Buffers are passed on once, and at most one was not. -/
structure HandedOnce (r : Reader) : Prop where
  allocated : ∀ b ∈ r.handed, b < r.buffers.length
  once : r.handed.Nodup
  alone : ∀ b < r.buffers.length, ∀ other < r.buffers.length, b ∉ r.handed →
    other ∉ r.handed → other = b

/-- Between two turns, the buffer that is left is the one to be used again. -/
structure Kept (r : Reader) : Prop where
  allocated : ∀ b ∈ r.handed, b < r.buffers.length
  once : r.handed.Nodup
  last : r.lastn.toNat < 2 ^ 32
  fresh : r.nextn ≠ 0 → ∀ b < r.buffers.length, b ∈ r.handed
  again : r.nextn = 0 → ∃ b, r.array = some b ∧
    r.buffers[b]? = some (r.lastn.toNat * sizeofIpKeyInfo) ∧ b ∉ r.handed ∧
      ∀ other < r.buffers.length, other ∉ r.handed → other = b

section Buffers

variable {r asked : Reader} {malloc : Bool}

theorem Kept.handedOnce (kept : Kept r) : HandedOnce r where
  allocated := kept.allocated
  once := kept.once
  alone := by
    intro b inside other otherInside left otherLeft
    by_cases fresh : r.nextn = 0
    · rcases kept.again fresh with ⟨held, -, -, -, alone⟩
      rw [alone b inside left, alone other otherInside otherLeft]
    · exact absurd (kept.fresh fresh b inside) left

/-- What holds at the call: the array is owned, and `lastn` remembers the request. -/
structure AtCall (asked : Reader) : Prop where
  allocated : ∀ b ∈ asked.handed, b < asked.buffers.length
  once : asked.handed.Nodup
  last : asked.lastn = asked.n.toUInt64
  owned : Owned asked

theorem Kept.ask (kept : Kept r) (asks : r.ask malloc = some asked) : AtCall asked := by
  simp only [Reader.ask] at asks
  split at asks
  · next fresh =>
      have handed := kept.fresh fresh
      split at asks
      · obtain rfl := Option.some.inj asks
        refine ⟨?_, kept.once, rfl, ?_⟩
        · intro b member
          have inside := kept.allocated b member
          simp only [List.length_append, List.length_singleton]
          omega
        · refine ⟨r.buffers.length, rfl, by simp, ?_, ?_⟩
          · intro member
            exact (kept.allocated _ member).false
          · intro other inside left
            simp only [List.length_append, List.length_singleton] at inside
            by_contra elsewhere
            exact left (handed other (by omega))
      · simp at asks
  · next again =>
      rcases kept.again (not_not.mp again) with ⟨b, array, room, left, alone⟩
      obtain rfl := Option.some.inj asks
      have size : r.lastn.toUInt32.toNat = r.lastn.toNat := by
        rw [UInt64.toNat_toUInt32]
        exact Nat.mod_eq_of_lt kept.last
      exact ⟨kept.allocated, kept.once, rfl, b, array, by rw [size, room], left, alone⟩

theorem AtCall.finish (atCall : AtCall asked) (outcome : FetchOutcome) :
    Kept (asked.finish outcome) := by
  rcases atCall with ⟨allocated, once, last, b, array, room, left, alone⟩
  have small : asked.lastn.toNat < 2 ^ 32 := by
    rw [last]
    exact asked.n.toNat_lt
  cases outcome with
  | failed cleared =>
      refine ⟨allocated, once, small, fun some => absurd rfl some, ?_⟩
      intro _
      exact ⟨b, array, by simp only [Reader.finish, last, UInt32.toNat_toUInt64, room], left, alone⟩
  | got n =>
      have some : nextRequest n asked.lastn ≠ 0 := by
        intro zero
        have value := @toNat_nextRequest n asked.n
        rw [← last, zero, UInt64.toNat_zero] at value
        omega
      simp only [Reader.finish, array, Option.toList_some]
      refine ⟨?_, ?_, small, ?_, fun zero => absurd zero some⟩
      · intro other member
        rcases List.mem_append.mp member with before | now
        · exact allocated other before
        · obtain rfl := List.mem_singleton.mp now
          exact (List.getElem?_eq_some_iff.mp room).1
      · rw [List.nodup_append]
        refine ⟨once, List.nodup_singleton b, ?_⟩
        rintro other member _ now rfl
        obtain rfl := List.mem_singleton.mp now
        exact left member
      · intro _ other inside
        by_cases before : other ∈ asked.handed
        · exact List.mem_append_left _ before
        · exact List.mem_append_right _ (List.mem_singleton.mpr (alone other inside before))

end Buffers

/-- At every fetch the array is owned, and buffers are passed on once, whatever the fetches
return. -/
theorem buffers_handed_once (turns : List Turn) :
    Meets readerStep (fun state turn => ∀ asked, Asks state turn.malloc asked → Owned asked)
        (some Reader.init) turns ∧
      Always readerStep (fun state => ∀ r, state = some r → HandedOnce r) (some Reader.init)
        turns := by
  have initially : ∀ r, some Reader.init = some r → Kept r := by
    rintro r same
    obtain rfl := Option.some.inj same
    exact ⟨by simp [Reader.init], by simp [Reader.init], by decide, by simp [Reader.init],
      fun zero => absurd zero (by decide)⟩
  have step : ∀ state turn, (∀ r, state = some r → Kept r) → True →
      ∀ r, readerStep state turn = some r → Kept r := by
    intro state turn kept _ later next
    rcases Option.map_eq_some_iff.mp next with ⟨asked, asks, rfl⟩
    rcases Option.bind_eq_some_iff.mp asks with ⟨r, rfl, asks⟩
    exact ((kept r rfl).ask asks).finish turn.outcome
  have every : Meets readerStep (fun _ _ => True) (some Reader.init) turns :=
    meets_of_mem (fun _ _ _ => trivial) _
  constructor
  · apply meets_of_invariant step _ initially every
    rintro state turn kept - asked ⟨r, rfl, asks⟩
    exact ((kept r rfl).ask asks).owned
  · apply always_of_invariant step _ initially every
    intro state kept r same
    exact (kept r same).handedOnce

end Linguafranca.Ipshark
