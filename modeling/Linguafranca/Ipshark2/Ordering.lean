import Linguafranca.Ipshark2.Filter
import Linguafranca.Support.Memory

/-!
# Sorting the flat array of names

The records lie one behind the other in one array of bytes. `__devset_order` finds them by a
pointer that it moves on by the size of a record and by offsets from the start, and moves them by
`memcpy`. In terms of records that is the sort of `devsetOrder`. The offsets are exact numbers:
`kcalloc` gives no array of `2 ^ 31` bytes, and in a shorter one the products of the source do not
overflow (`intOffset_eq`).
-/

namespace Linguafranca.Ipshark2

open SelectionSort

/-- The structure `data` with the bytes that `name` leads to. -/
structure DataBytes where
  black : Bool
  elenum : Int
  size : Int
  name : Option Memory
  hash : Option (ℕ → UInt32)

/-- The variables of `__devset_order`: both arrays and the offset of the pointer `name`. -/
structure OrderState where
  bytes : Memory
  hash : ℕ → UInt32
  name : ℕ

section

variable (jhash : List UInt8 → UInt32 → UInt32)

/-- One iteration of the first loop. The string ends in the array at the latest. -/
def hashTurn (n size : ℕ) (s : OrderState) (i : ℕ) : OrderState :=
  { s with
    hash := Function.update s.hash i
      (jhash (cString (s.bytes.span s.name (size * n - s.name))) devNameHashInitval)
    name := s.name + size }

/-- One iteration of the second loop, the statements of the swap in their order. -/
def orderTurn (kzalloc : Bool) (n size : ℕ) (s : OrderState) (i : ℕ) : Option OrderState :=
  let small := (List.range' (i + 1) (n - (i + 1))).foldl
    (fun small j => if s.hash j < s.hash small then j else small) i
  if small = i then some { s with name := s.name + size }
  else if !kzalloc then none
  else
    let tmphash := s.hash i
    let tmpname := s.bytes.span s.name size
    let hash := Function.update s.hash i (s.hash small)
    let bytes := s.bytes.store s.name (s.bytes.span (size * small) size)
    let hash := Function.update hash small tmphash
    let bytes := bytes.store (size * small) tmpname
    some ⟨bytes, hash, s.name + size⟩

/-- `devset_order` on the bytes of the names. -/
def devsetOrderBytes (kzalloc : Bool) (data : DataBytes) : Option DataBytes :=
  match data.name, data.hash with
  | some name, some hash =>
      let n := data.elenum.toNat
      let size := data.size.toNat
      let hashed := (List.range n).foldl (hashTurn jhash n size) ⟨name, hash, 0⟩
      ((List.range n).foldlM (orderTurn kzalloc n size) { hashed with name := 0 }).map fun s =>
        { data with name := some s.bytes, hash := some s.hash }
  | _, _ => some data

end

/-! ## The records -/

/-- Record `i` of an array of records. -/
def recordAt (size : ℕ) (bytes : Memory) (i : ℕ) : List UInt8 :=
  bytes.span (size * i) size

/-- The device set with its names as records. -/
def DataBytes.toData (data : DataBytes) : Data :=
  ⟨data.black, data.elenum, data.size, data.name.map (recordAt data.size.toNat), data.hash⟩

section

variable {jhash : List UInt8 → UInt32 → UInt32} {kzalloc : Bool} {n size i : ℕ} {bytes : Memory}
  {hash : ℕ → UInt32} {piece : List UInt8}

@[simp]
theorem length_recordAt (size : ℕ) (bytes : Memory) (i : ℕ) :
    (recordAt size bytes i).length = size :=
  Memory.length_span

/-- A record stored in its place changes no other. -/
theorem recordAt_store (whole : piece.length = size) :
    recordAt size (bytes.store (size * i) piece) =
      Function.update (recordAt size bytes) i piece := by
  funext j
  rcases lt_trichotomy j i with before | rfl | behind
  · have apart := Nat.mul_le_mul_left size (Nat.succ_le_of_lt before)
    rw [Function.update_of_ne before.ne, recordAt, recordAt]
    apply Memory.span_store_of_disjoint
    rw [Nat.mul_succ] at apart
    omega
  · rw [Function.update_self, recordAt, ← whole]
    exact Memory.span_store_self piece
  · have apart := Nat.mul_le_mul_left size (Nat.succ_le_of_lt behind)
    rw [Function.update_of_ne behind.ne', recordAt, recordAt]
    apply Memory.span_store_of_disjoint
    rw [Nat.mul_succ] at apart
    omega

theorem flatMap_recordAt (size : ℕ) (bytes : Memory) (i count : ℕ) :
    (List.range' i count).flatMap (recordAt size bytes) =
      bytes.span (size * i) (size * count) := by
  induction count generalizing i with
  | zero => simp [Memory.span]
  | succ count ih =>
      rw [List.range'_succ, List.flatMap_cons, ih, recordAt, Nat.mul_succ size i,
        ← Memory.span_append, Nat.mul_succ size count, Nat.add_comm]

/-! ## The first loop -/

theorem foldl_hashTurn (bytes : Memory) (hash : ℕ → UInt32) {count : ℕ} (upTo : count ≤ n) :
    (List.range count).foldl (hashTurn jhash n size) ⟨bytes, hash, 0⟩ =
      ⟨bytes, fun i => if i < count then recordHash jhash n (recordAt size bytes) i else hash i,
        size * count⟩ := by
  induction count with
  | zero => simp
  | succ count ih =>
      have rest : size * n - size * count = size * (n - count) := (Nat.mul_sub size n count).symm
      rw [List.range_succ, List.foldl_append, ih (by omega), List.foldl_cons, List.foldl_nil,
        hashTurn]
      simp only [rest, OrderState.mk.injEq, true_and]
      refine ⟨?_, (Nat.mul_succ size count).symm⟩
      funext i
      by_cases here : i = count
      · subst here
        rw [Function.update_self, if_pos (Nat.lt_succ_self i), recordHash, flatMap_recordAt]
      · rw [Function.update_of_ne here]
        simp only [Nat.lt_succ_iff_lt_or_eq, here, or_false]

/-! ## The second loop -/

/-- The records and hashes while the loops run. -/
def OrderState.records (size : ℕ) (s : OrderState) : (ℕ → List UInt8) × (ℕ → UInt32) :=
  (recordAt size s.bytes, s.hash)

/-- An iteration swaps two records by their offsets as `orderPass` does by their indices, and
moves the pointer on to the next record. -/
theorem orderTurn_records (kzalloc : Bool) (n size : ℕ) (bytes : Memory) (hash : ℕ → UInt32)
    (i : ℕ) :
    (orderTurn kzalloc n size ⟨bytes, hash, size * i⟩ i).map
        (fun s => (s.name, s.records size)) =
      (orderPass kzalloc n (recordAt size bytes, hash) i).map
        (fun both => (size * (i + 1), both)) := by
  simp only [orderTurn, orderPass]
  generalize (List.range' (i + 1) (n - (i + 1))).foldl
    (fun small j => if hash j < hash small then j else small) i = small
  split
  · rfl
  · cases kzalloc with
    | false => rfl
    | true =>
        have first : (bytes.span (size * small) size).length = size := Memory.length_span
        have second : (bytes.span (size * i) size).length = size := Memory.length_span
        simp only [Bool.not_true, Bool.false_eq_true, if_false, Option.map_some,
          OrderState.records, recordAt_store second, recordAt_store first]
        rfl

theorem foldlM_orderTurn_records (kzalloc : Bool) (n size : ℕ) (bytes : Memory)
    (hash : ℕ → UInt32) (count : ℕ) :
    ((List.range count).foldlM (orderTurn kzalloc n size) ⟨bytes, hash, 0⟩).map
        (fun s => (s.name, s.records size)) =
      ((List.range count).foldlM (orderPass kzalloc n) (recordAt size bytes, hash)).map
        (fun both => (size * count, both)) := by
  induction count with
  | zero => rfl
  | succ count ih =>
      rw [List.range_succ, List.foldlM_append, List.foldlM_append]
      cases passed : (List.range count).foldlM (orderTurn kzalloc n size) ⟨bytes, hash, 0⟩ with
      | none =>
          rw [passed, Option.map_none] at ih
          rw [Option.map_eq_none_iff.mp ih.symm]
          rfl
      | some s =>
          rcases s with ⟨after, hashes, name⟩
          rw [passed, Option.map_some] at ih
          rcases Option.map_eq_some_iff.mp ih.symm with ⟨both, done, same⟩
          simp only [Prod.mk.injEq] at same
          rcases same with ⟨rfl, rfl⟩
          rw [done]
          simpa [OrderState.records] using orderTurn_records kzalloc n size after hashes count

/-- Sorting the bytes is sorting the records. -/
theorem devsetOrderBytes_toData (jhash : List UInt8 → UInt32 → UInt32) (kzalloc : Bool)
    (data : DataBytes) :
    (devsetOrderBytes jhash kzalloc data).map DataBytes.toData =
      devsetOrder jhash kzalloc data.toData := by
  rcases data with ⟨black, elenum, size, _ | name, _ | hash⟩
  · rfl
  · rfl
  · rfl
  · have loop := foldlM_orderTurn_records kzalloc elenum.toNat size.toNat name
      (fun i => if i < elenum.toNat then
        recordHash jhash elenum.toNat (recordAt size.toNat name) i else hash i) elenum.toNat
    have both := congrArg (Option.map fun found : ℕ × (ℕ → List UInt8) × (ℕ → UInt32) =>
      Data.mk black elenum size (some found.2.1) (some found.2.2)) loop
    rw [Option.map_map, Option.map_map] at both
    simp only [devsetOrderBytes, foldl_hashTurn name hash le_rfl, Option.map_map]
    exact both

/-- Behind the array nothing is written. -/
theorem orderTurn_frame {s after : OrderState} {offset : ℕ}
    (done : orderTurn kzalloc n size s i = some after) (inside : i < n)
    (place : s.name = size * i) (outside : size * n ≤ offset) :
    after.bytes offset = s.bytes offset ∧ after.name = size * (i + 1) := by
  have found := (smallest_bounds (hashKey s.hash) inside).2
  simp only [orderTurn, scan_eq_smallest] at done
  generalize smallest (hashKey s.hash) i (behind i n) = small at done found
  have here := Nat.mul_le_mul_left size (Nat.succ_le_of_lt inside)
  have there := Nat.mul_le_mul_left size (Nat.succ_le_of_lt found)
  rw [Nat.mul_succ] at here there
  split at done
  · obtain rfl := Option.some.inj done
    exact ⟨rfl, by rw [place, Nat.mul_succ]⟩
  · split at done
    · exact absurd done (Option.some_ne_none after).symm
    · obtain rfl := Option.some.inj done
      refine ⟨?_, by rw [place, Nat.mul_succ]⟩
      simp only
      rw [Memory.store_of_le (by rw [Memory.length_span]; omega),
        Memory.store_of_le (by rw [Memory.length_span, place]; omega)]

theorem foldlM_orderTurn_frame {after : OrderState} {count offset : ℕ} (upTo : count ≤ n)
    (done : (List.range count).foldlM (orderTurn kzalloc n size) ⟨bytes, hash, 0⟩ = some after)
    (outside : size * n ≤ offset) :
    after.bytes offset = bytes offset ∧ after.name = size * count := by
  induction count generalizing after with
  | zero =>
      obtain rfl := Option.some.inj done
      exact ⟨rfl, rfl⟩
  | succ count ih =>
      rw [List.range_succ, List.foldlM_append] at done
      rcases Option.bind_eq_some_iff.mp done with ⟨s, before, last⟩
      rw [List.foldlM_cons] at last
      rcases Option.bind_eq_some_iff.mp last with ⟨next, turn, same⟩
      obtain rfl := Option.some.inj same
      rcases ih (by omega) before with ⟨kept, place⟩
      rcases orderTurn_frame turn (by omega) place outside with ⟨keptAgain, moved⟩
      exact ⟨keptAgain.trans kept, moved⟩

/-- After `__devset_order` the hashes are in order, each is the hash of the record with its
index, and the records are those from before in another order. Nothing behind the two arrays is
written. -/
theorem devsetOrderBytes_sorts (jhash : List UInt8 → UInt32 → UInt32) (black : Bool) (n size : ℕ)
    (bytes : Memory) (old : ℕ → UInt32)
    (ends : ∀ i < n, TerminatedIn size (recordAt size bytes i)) :
    ∃ after hash,
      devsetOrderBytes jhash true ⟨black, n, size, some bytes, some old⟩ =
        some ⟨black, n, size, some after, some hash⟩ ∧
      (∀ i j, i ≤ j → j < n → hash i ≤ hash j) ∧
      (∀ i < n, hash i = jhash (cString (recordAt size after i)) devNameHashInitval) ∧
      ((List.range n).map (recordAt size after)).Perm ((List.range n).map (recordAt size bytes)) ∧
      (∀ offset, size * n ≤ offset → after offset = bytes offset) ∧
      (∀ i, n ≤ i → hash i = old i) := by
  let unsorted : ℕ → UInt32 :=
    fun i => if i < n then recordHash jhash n (recordAt size bytes) i else old i
  let σ := hashOrder unsorted n n
  have loop := foldlM_orderTurn_records true n size bytes unsorted n
  rw [foldlM_orderPass, Option.map_some] at loop
  rcases Option.map_eq_some_iff.mp loop with ⟨⟨after, hash, name⟩, done, same⟩
  simp only [OrderState.records, Prod.mk.injEq] at same
  rcases same with ⟨-, moved, hashes⟩
  have place : ∀ i < n, σ i < n := fun i inside => order_lt le_rfl inside
  refine ⟨after, hash, ?_, ?_, ?_, ?_, ?_, ?_⟩
  · simp only [devsetOrderBytes, Int.toNat_natCast, foldl_hashTurn bytes old le_rfl]
    rw [done]
    rfl
  · intro i j ordered inside
    rw [hashes]
    have keys := @sorted_order ℕ _ (hashKey unsorted) _ _ _ ordered inside
    exact UInt32.le_iff_toNat_le.mpr keys
  · intro i inside
    have here := place i inside
    rw [hashes, moved]
    change (if σ i < n then _ else _) = jhash (cString (recordAt size bytes (σ i))) _
    rw [if_pos here, recordHash_eq here (ends _ here)]
    rfl
  · rw [moved, ← List.map_map]
    exact (map_order_perm (hashKey unsorted) n).map (recordAt size bytes)
  · intro offset behind
    exact (foldlM_orderTurn_frame le_rfl done behind).1
  · intro i outside
    have fixed : σ i = i := order_of_le le_rfl outside
    rw [hashes]
    change unsorted (σ i) = old i
    rw [fixed]
    exact if_neg (by omega)

/-- The offset of a record in the source is a product of two `int`s. -/
def intOffset (size small : ℕ) : Int :=
  ((size : Int) * small).bmod 4294967296

/-- In an array of less than `2 ^ 31` bytes the product is exact. -/
theorem intOffset_eq {small : ℕ} (short : size * n < 2147483648) (inside : small < n) :
    intOffset size small = (size * small : ℕ) := by
  have before := (Nat.mul_le_mul_left size inside.le).trans_lt short
  have exact_product : ∀ product : ℕ, product < 2147483648 →
      (product : Int).bmod 4294967296 = product := by
    intro product small
    rw [Int.bmod_def]
    omega
  exact exact_product (size * small) before

end

/-- Two records of two bytes, the one with the higher hash first. -/
def twoRecords (offset : ℕ) : UInt8 :=
  if offset = 0 then 9 else if offset = 2 then 4 else 0

/-- A hash function for the examples: the sum of the bytes. -/
def sumHash (bytes : List UInt8) (_ : UInt32) : UInt32 :=
  UInt32.ofNat (bytes.map UInt8.toNat).sum

theorem devsetOrderBytes_sorts_twoRecords :
    ∃ after hash,
      devsetOrderBytes sumHash true ⟨false, (2 : ℕ), (2 : ℕ), some twoRecords, some fun _ => 0⟩ =
        some ⟨false, (2 : ℕ), (2 : ℕ), some after, some hash⟩ ∧
      hash 0 ≤ hash 1 ∧ hash 0 = sumHash (cString (recordAt 2 after 0)) devNameHashInitval := by
  have ends : ∀ i < 2, TerminatedIn 2 (recordAt 2 twoRecords i) := by decide
  rcases devsetOrderBytes_sorts sumHash false 2 2 twoRecords (fun _ => 0) ends with
    ⟨after, hash, done, sorted, paired, -⟩
  exact ⟨after, hash, done, sorted 0 1 (by omega) (by omega), paired 0 (by omega)⟩

end Linguafranca.Ipshark2
