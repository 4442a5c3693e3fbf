import Linguafranca.Ipshark2.Pool
import Linguafranca.Support.Gather

/-!
# What fits into one delivery

`ip_queue_move2dma` should take the first 128 of all ready indices, CPU after CPU. It takes
the number of indices copied so far from the room at every CPU, so that the indices of a fifo
count once more at each later one. A delivery takes what fits exactly when this never leaves
less room to a fifo than it needs.
-/

namespace Linguafranca.Ipshark2

open Gather

/-- The contents of the ready fifos. -/
def readyItems (cpus : List QueueData) : List (List ℕ) :=
  cpus.map fun c => c.ready.items

/-- The first ready indices of all CPUs are handed over, as many as fit, and the others stay
where they are. -/
structure DrainsFitting (q q' : IpQueue) : Prop where
  num : q'.m.idxNum = min ipsIdxArraySize (total (readyItems q.qptr))
  first : q'.m.delivered = (readyItems q.qptr).flatten.take q'.m.idxNum
  kept : readyItems q'.qptr = remains ipsIdxArraySize (readyItems q.qptr)
  within : q'.m.idxArray.drop ipsIdxArraySize = q.m.idxArray.drop ipsIdxArraySize

/-- What has been taken from the room after some fifos, when that many indices were copied
before: for each fifo that is not empty, the indices copied up to its end. -/
def charged : ℕ → List (List ℕ) → ℕ
  | _, [] => 0
  | copied, queue :: queues =>
      if queue = [] then charged copied queues
      else copied + queue.length + charged (copied + queue.length) queues

/-- Each fifo that is not empty and not behind a full array fits into what the charges leave,
or nothing was charged twice so far. -/
def FitsCharged (queues : List (List ℕ)) : Prop :=
  ∀ before queue after, queues = before ++ queue :: after → queue ≠ [] →
    total before < ipsIdxArraySize →
      charged 0 before = total before ∨ charged 0 before + queue.length ≤ ipsIdxArraySize

/-- The same for the loop with some room left, of which it knows `num`. -/
def ChargedRight (copied : ℕ) (num : Int) (room : ℕ) (queues : List (List ℕ)) : Prop :=
  ∀ before queue after, queues = before ++ queue :: after → queue ≠ [] → total before < room →
    num - charged copied before = room - total before ∨
      (charged copied before + queue.length : Int) ≤ num

section Charges

variable {copied room : ℕ} {num : Int} {queue : List ℕ} {queues : List (List ℕ)}

theorem fitsCharged_iff :
    FitsCharged queues ↔ ChargedRight 0 ipsIdxArraySize ipsIdxArraySize queues := by
  simp only [FitsCharged, ChargedRight]
  constructor
  · intro fits before queue after split some below
    rcases fits before queue after split some below with same | enough
    · left
      omega
    · right
      omega
  · intro right before queue after split some below
    rcases right before queue after split some below with same | enough
    · left
      omega
    · right
      omega

theorem chargedRight_nil : ChargedRight copied num room [] := by
  intro before queue after split
  simp at split

theorem chargedRight_cons_nil :
    ChargedRight copied num room ([] :: queues) ↔ ChargedRight copied num room queues := by
  constructor
  · intro right before queue after split some below
    have later := right ([] :: before) queue after (by simp [split]) some (by simpa using below)
    simpa [charged] using later
  · intro right before queue after split some below
    cases before with
    | nil =>
        simp only [List.nil_append, List.cons.injEq] at split
        exact absurd split.1.symm some
    | cons first before =>
        simp only [List.cons_append, List.cons.injEq] at split
        rcases split with ⟨rfl, split⟩
        have later := right before queue after split some (by simpa using below)
        simpa [charged] using later

theorem chargedRight_cons (some : queue ≠ []) :
    ChargedRight copied num room (queue :: queues) ↔
      (0 < room → num = room ∨ (queue.length : Int) ≤ num) ∧
        ChargedRight (copied + queue.length) (num - (copied + queue.length : ℕ))
          (room - queue.length) queues := by
  constructor
  · intro right
    refine ⟨?_, ?_⟩
    · intro below
      simpa [charged] using right [] queue queues rfl some below
    · intro before other after split nonempty below
      have later := right (queue :: before) other after (by simp [split]) nonempty (by
        simp only [total_cons]
        omega)
      simp only [charged, some, if_false, total_cons] at later
      omega
  · rintro ⟨first, rest⟩ before other after split nonempty below
    cases before with
    | nil =>
        simp only [List.nil_append, List.cons.injEq] at split
        rcases split with ⟨rfl, -⟩
        simpa [charged] using first below
    | cons head before =>
        simp only [List.cons_append, List.cons.injEq] at split
        rcases split with ⟨rfl, split⟩
        simp only [total_cons] at below
        have later := rest before other after split nonempty (by omega)
        simp only [charged, some, if_false, total_cons]
        omega

/-- Once the room seems used up, it is or there is nothing more. -/
theorem chargedRight_of_full (full : num ≤ 0) :
    ChargedRight copied num room queues ↔ (0 < room → ∀ queue ∈ queues, queue = []) := by
  induction queues generalizing copied num room with
  | nil => simp [chargedRight_nil]
  | cons queue queues ih =>
      by_cases empty : queue = []
      · subst empty
        simp [chargedRight_cons_nil, ih full]
      · have some := List.length_pos_iff.mpr empty
        rw [chargedRight_cons empty, ih (by omega)]
        constructor
        · rintro ⟨first, -⟩ below
          rcases first below with same | enough
          · omega
          · omega
        · intro nothing
          have none : room = 0 := by
            by_contra below
            exact empty (nothing (Nat.pos_of_ne_zero below) queue List.mem_cons_self)
          subst none
          simp

end Charges

/-! ## The loop -/

section Loop

variable {cpus : List QueueData} {c : QueueData} {copied room : ℕ} {num : Int}

theorem move2dmaLoop_of_full (full : num ≤ 0) : move2dmaLoop cpus copied num = ([], cpus) := by
  induction cpus with
  | nil => rfl
  | cons c cpus ih =>
      rw [move2dmaLoop]
      split
      · simp [ih]
      · have none : num.toNat = 0 := Int.toNat_eq_zero.mpr full
        simp only [none, Kfifo.out_zero, List.length_nil]
        rw [if_pos (by omega)]

/-- A fifo that is not empty hands over what it may, and the loop goes on. -/
theorem move2dmaLoop_cons (some : c.ready.items ≠ []) :
    move2dmaLoop (c :: cpus) copied num =
      let moved := c.ready.out num.toNat
      let later := move2dmaLoop cpus (copied + moved.1.length)
        (num - (copied + moved.1.length : ℕ))
      (moved.1 ++ later.1, { c with ready := moved.2 } :: later.2) := by
  rw [move2dmaLoop, if_neg some]
  dsimp only
  split
  · next full => rw [move2dmaLoop_of_full full, List.append_nil]
  · rfl

/-- The loop takes what fits into the room. -/
structure TakesFitting (room : ℕ) (cpus : List QueueData)
    (result : List ℕ × List QueueData) : Prop where
  taken : result.1 = (readyItems cpus).flatten.take room
  kept : readyItems result.2 = remains room (readyItems cpus)

theorem takesFitting_untouched :
    TakesFitting room cpus ([], cpus) ↔ (0 < room → ∀ queue ∈ readyItems cpus, queue = []) := by
  constructor
  · rintro ⟨taken, -⟩ below queue member
    have empty : (readyItems cpus).flatten = [] := by
      rcases List.take_eq_nil_iff.mp taken.symm with none | empty
      · omega
      · exact empty
    exact List.flatten_eq_nil_iff.mp empty queue member
  · intro nothing
    rcases Nat.eq_zero_or_pos room with rfl | below
    · exact ⟨by simp, (remains_zero _).symm⟩
    · have empty := nothing below
      refine ⟨?_, (remains_of_empty room empty).symm⟩
      rw [List.flatten_eq_nil_iff.mpr empty, List.take_nil]

theorem takesFitting_skip (empty : c.ready.items = []) :
    TakesFitting room (c :: cpus) (move2dmaLoop (c :: cpus) copied num) ↔
      TakesFitting room cpus (move2dmaLoop cpus copied num) := by
  rw [move2dmaLoop, if_pos empty]
  constructor
  · rintro ⟨taken, kept⟩
    refine ⟨by simpa [readyItems, empty] using taken, ?_⟩
    simpa [readyItems, empty, remains] using kept
  · rintro ⟨taken, kept⟩
    refine ⟨by simpa [readyItems, empty] using taken, ?_⟩
    simpa [readyItems, empty, remains] using kept

/-- A fifo that fits is taken as a whole. -/
theorem takesFitting_whole (some : c.ready.items ≠ []) (fits : (c.ready.items.length : Int) ≤ num)
    (inside : num ≤ room) :
    TakesFitting room (c :: cpus) (move2dmaLoop (c :: cpus) copied num) ↔
      TakesFitting (room - c.ready.items.length) cpus
        (move2dmaLoop cpus (copied + c.ready.items.length)
          (num - (copied + c.ready.items.length : ℕ))) := by
  have whole : c.ready.items.length ≤ num.toNat := by omega
  have within : c.ready.items.length ≤ room := by omega
  have taken : (c.ready.out num.toNat).1 = c.ready.items := List.take_of_length_le whole
  have left : (c.ready.out num.toNat).2.items = [] := List.drop_of_length_le whole
  have front : ((readyItems (c :: cpus)).flatten.take room) =
      c.ready.items ++ (readyItems cpus).flatten.take (room - c.ready.items.length) := by
    simp [readyItems, List.take_append, List.take_of_length_le within]
  have rest : remains room (readyItems (c :: cpus)) =
      [] :: remains (room - c.ready.items.length) (readyItems cpus) := by
    simp [readyItems, remains, List.drop_of_length_le within]
  rw [move2dmaLoop_cons some]
  simp only [taken]
  constructor
  · rintro ⟨result, kept⟩
    rw [front] at result
    rw [rest] at kept
    refine ⟨List.append_cancel_left result, ?_⟩
    simpa [readyItems, left] using kept
  · rintro ⟨result, kept⟩
    refine ⟨by rw [front, result], ?_⟩
    rw [rest]
    simpa [readyItems, left] using kept

/-- A fifo that does not fit into what the loop thinks is left ends it, which is right when
that is the room. -/
theorem takesFitting_part (some : c.ready.items ≠ []) (positive : 0 < num)
    (short : num < c.ready.items.length) (inside : num ≤ room) :
    TakesFitting room (c :: cpus) (move2dmaLoop (c :: cpus) copied num) ↔ num = room := by
  have length : (c.ready.out num.toNat).1.length = num.toNat := by
    simp only [Kfifo.out, List.length_take]
    omega
  rw [move2dmaLoop_cons some]
  simp only [length]
  rw [move2dmaLoop_of_full (by omega)]
  simp only [List.append_nil]
  constructor
  · rintro ⟨result, -⟩
    have lengths := congrArg List.length result
    simp only [length, readyItems, List.map_cons, List.flatten_cons, List.length_take,
      List.length_append] at lengths
    omega
  · rintro rfl
    simp only [Int.toNat_natCast]
    have within : room ≤ c.ready.items.length := by omega
    refine ⟨?_, ?_⟩
    · simp [readyItems, Kfifo.out, List.take_append_of_le_length within]
    · simp [readyItems, remains, Kfifo.out, Nat.sub_eq_zero_of_le within, remains_zero]

theorem takesFitting_iff (inside : num ≤ room) :
    TakesFitting room cpus (move2dmaLoop cpus copied num) ↔
      ChargedRight copied num room (readyItems cpus) := by
  induction cpus generalizing copied num room with
  | nil =>
      have right : ChargedRight copied num room (readyItems []) := chargedRight_nil
      simp only [right, iff_true]
      exact ⟨by simp [move2dmaLoop, readyItems], rfl⟩
  | cons c cpus ih =>
      by_cases empty : c.ready.items = []
      · rw [takesFitting_skip empty, ih inside]
        simp only [readyItems, List.map_cons, empty]
        exact chargedRight_cons_nil.symm
      · have some := List.length_pos_iff.mpr empty
        rcases le_or_gt num 0 with full | positive
        · rw [move2dmaLoop_of_full full, takesFitting_untouched, chargedRight_of_full full]
        · have split : readyItems (c :: cpus) = c.ready.items :: readyItems cpus := rfl
          rw [split, chargedRight_cons empty]
          rcases le_or_gt (c.ready.items.length : Int) num with fits | short
          · rw [takesFitting_whole empty fits inside, ih (by omega)]
            simp [fits]
          · rw [takesFitting_part empty positive short inside]
            constructor
            · intro same
              refine ⟨fun _ => Or.inl same, ?_⟩
              intro before queue after _ _ below
              omega
            · rintro ⟨first, -⟩
              rcases first (by omega) with same | enough
              · exact same
              · omega

end Loop

/-! ## The call -/

theorem length_moved_le (cpus : List QueueData) {copied : ℕ} {num : Int} :
    (move2dmaLoop cpus copied num).1.length ≤ num.toNat := by
  induction cpus generalizing copied num with
  | nil => simp [move2dmaLoop]
  | cons c cpus ih =>
      by_cases empty : c.ready.items = []
      · rw [move2dmaLoop, if_pos empty]
        exact ih
      · rw [move2dmaLoop_cons empty]
        have first : (c.ready.out num.toNat).1.length ≤ num.toNat := by simp [Kfifo.out]
        have later := @ih (copied + (c.ready.out num.toNat).1.length)
          (num - (copied + (c.ready.out num.toNat).1.length : ℕ))
        simp only [List.length_append]
        omega

/-- A delivery takes what fits exactly when no fifo is refused room that is there. -/
theorem drainsFitting_iff (q : IpQueue) :
    DrainsFitting q (ipQueueMove2dma q) ↔ FitsCharged (readyItems q.qptr) := by
  rw [fitsCharged_iff, ← takesFitting_iff le_rfl]
  have bounded := @length_moved_le q.qptr 0 ipsIdxArraySize
  constructor
  · intro drains
    have delivered := drains.first
    rw [delivered_ipQueueMove2dma, drains.num] at delivered
    refine ⟨?_, drains.kept⟩
    rw [delivered, List.take_eq_take_iff]
    simp only [total]
    omega
  · rintro ⟨taken, kept⟩
    have length := congrArg List.length taken
    refine ⟨?_, ?_, kept, ?_⟩
    · simpa [ipQueueMove2dma, total] using length
    · rw [delivered_ipQueueMove2dma, taken]
      simp only [ipQueueMove2dma, taken, List.length_take, List.take_eq_take_iff]
      omega
    · have within : (move2dmaLoop q.qptr 0 ipsIdxArraySize).1.length ≤ ipsIdxArraySize := by
        simpa using bounded
      simp only [ipQueueMove2dma, List.drop_append, List.drop_of_length_le within,
        List.nil_append, List.drop_drop, Nat.add_sub_cancel' within]

/-! ## Three CPUs -/

/-- A CPU of whose indices the first ones are ready and the others idle. -/
def readyCpu (start size ready : ℕ) : QueueData :=
  ⟨start, start + size, ⟨(List.range' start size).drop ready, size, by simp⟩,
    ⟨(List.range' start size).take ready, size, by simp⟩, false⟩

/-- The first CPU has 64 indices ready, and the other two one of two each. -/
def threeReady : IpQueue where
  qptr := [readyCpu 0 64 64, readyCpu 64 2 1, readyCpu 66 2 1]
  m := ⟨List.replicate 128 0, 0, 68, fun index =>
    ⟨infoEc, 0, if index = 65 ∨ index = 67 then .free else .inuse⟩⟩
  waitMs := 10
  counters := ⟨0, 0, 0, 0, 0, 0, 0⟩

/-- The index of the third CPU is left behind. -/
theorem threeReady_not_drained : ¬DrainsFitting threeReady (ipQueueMove2dma threeReady) := by
  intro drains
  exact absurd drains.num (by decide)

end Linguafranca.Ipshark2
