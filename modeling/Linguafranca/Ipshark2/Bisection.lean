import Linguafranca.Ipshark2.Filter

/-!
# The bisection on the array of hashes

The loop of `devset_ignore` with the array that it reads. A read outside of the array has no
result, and neither has a loop that is not at its end after a number of turns. On sorted hashes
the range never runs empty, so that the index left at the end has the hash or is -1.
-/

namespace Linguafranca.Ipshark2

/-- `data.hash[i]`. -/
def readHash (hash : List UInt32) (i : Int) : Option UInt32 :=
  if 0 ≤ i then hash[i.toNat]? else none

/-- How a turn of the loop ends. -/
inductive BisectTurn where
  | again (low high t : Int)
  | stop (t : Int)
deriving DecidableEq

/-- The body of the loop. -/
def bisectTurn (hash : List UInt32) (h : UInt32) (low high : Int) : Option BisectTurn :=
  (readHash hash high).bind fun atHigh =>
    -- `data.hash[low]` is only read behind `&&` if the first comparison holds
    (if h < atHigh then (readHash hash low).map fun atLow => decide (atLow < h)
      else some false).bind fun between =>
        if between then
          let t := low + (high - low) / 2
          (readHash hash t).map fun atT =>
            if h < atT then .again low (t - 1) t
            else if atT < h then .again (t + 1) high t
            else .stop t
        else if h = atHigh then some (.stop high)
        else (readHash hash low).map fun atLow => if h = atLow then .stop low else .stop (-1)

/-- At most so many turns of the loop; `none` when they do not suffice or an index is outside. -/
def bisectLoop (hash : List UInt32) (h : UInt32) : ℕ → Int → Int → Int → Option Int
  | 0, low, high, t => if low ≤ high then none else some t
  | turns + 1, low, high, t =>
      if low ≤ high then
        (bisectTurn hash h low high).bind fun
          | .again low high t => bisectLoop hash h turns low high t
          | .stop t => some t
      else some t

section

variable {hash : List UInt32} {h : UInt32} {low high t i : Int} {turns : ℕ}

/-- The array as a function of the index. -/
def hashAt (hash : List UInt32) (i : ℕ) : UInt32 :=
  hash.getD i 0

theorem readHash_of_inside (start : 0 ≤ i) (inside : i < hash.length) :
    readHash hash i = some (hashAt hash i.toNat) := by
  have below : i.toNat < hash.length := by omega
  rw [readHash, if_pos start, hashAt, List.getD_eq_getElem _ _ below, List.getElem?_eq_getElem below]

/-- What `bisect` does in one turn; all reads are inside of the array. -/
theorem bisectTurn_eq (start : 0 ≤ low) (nonempty : low ≤ high) (inside : high < hash.length) :
    bisectTurn hash h low high = some
      (if h < hashAt hash high.toNat ∧ hashAt hash low.toNat < h then
        let t := low + (high - low) / 2
        if h < hashAt hash t.toNat then .again low (t - 1) t
        else if hashAt hash t.toNat < h then .again (t + 1) high t
        else .stop t
      else if h = hashAt hash high.toNat then .stop high
      else if h = hashAt hash low.toNat then .stop low
      else .stop (-1)) := by
  have middle : low ≤ low + (high - low) / 2 ∧ low + (high - low) / 2 ≤ high := by omega
  simp only [bisectTurn, readHash_of_inside (start.trans nonempty) inside,
    readHash_of_inside start (nonempty.trans_lt inside),
    readHash_of_inside (start.trans middle.1) (middle.2.trans_lt inside), Option.bind_some,
    Option.map_some]
  by_cases below : h < hashAt hash high.toNat
  · by_cases above : hashAt hash low.toNat < h
    · simp [below, above]
    · have notHigh : h ≠ hashAt hash high.toNat := (UInt32.ne_of_lt below)
      simp [below, above, notHigh]
  · by_cases last : h = hashAt hash high.toNat
    · simp [last]
    · simp [below, last]

/-- In any array, sorted or not, the loop ends without a read outside. -/
theorem bisectLoop_eq_bisect (start : 0 ≤ low) (inside : high < hash.length)
    (enough : high + 1 - low ≤ turns) :
    bisectLoop hash h turns low high t = some (bisect (hashAt hash) h low high t) := by
  induction turns generalizing low high t with
  | zero =>
      have empty : ¬low ≤ high := by omega
      rw [bisectLoop, if_neg empty, bisect, if_neg empty]
  | succ turns ih =>
      by_cases nonempty : low ≤ high
      · have middle : low ≤ low + (high - low) / 2 ∧ low + (high - low) / 2 ≤ high := by omega
        rw [bisectLoop, if_pos nonempty, bisectTurn_eq start nonempty inside, bisect,
          if_pos nonempty, Option.bind_some]
        generalize low + (high - low) / 2 = mid at middle ⊢
        simp only
        split_ifs
        · apply ih start
          · omega
          · omega
        · apply ih _ inside
          · omega
          · omega
        · rfl
        · rfl
        · rfl
        · rfl
      · rw [bisectLoop, if_neg nonempty, bisect, if_neg nonempty]

theorem hashAt_le_hashAt (sorted : hash.Pairwise (· ≤ ·)) {i j : ℕ} (ordered : i ≤ j)
    (inside : j < hash.length) : hashAt hash i ≤ hashAt hash j := by
  rcases ordered.eq_or_lt with rfl | before
  · exact UInt32.le_refl _
  · rw [hashAt, hashAt, List.getD_eq_getElem _ _ inside,
      List.getD_eq_getElem _ _ (before.trans inside)]
    exact List.pairwise_iff_getElem.mp sorted i j _ inside before

/-- The loop ends after at most as many turns as there are hashes and reads only inside of the
array. It finds an index with the hash if there is one and leaves -1 otherwise. -/
theorem bisectLoop_finds (h : UInt32) (someHash : hash ≠ []) (sorted : hash.Pairwise (· ≤ ·))
    (enough : hash.length ≤ turns) :
    ∃ t, bisectLoop hash h turns 0 (hash.length - 1) 0 = some t ∧
      (h ∈ hash → ∃ i : ℕ, t = i ∧ hash[i]? = some h) ∧ (h ∉ hash → t = -1) := by
  have positive := List.length_pos_of_ne_nil someHash
  refine ⟨_, bisectLoop_eq_bisect le_rfl (by omega) (by omega), ?_⟩
  rcases @bisect_spec hash.length (hashAt hash) h 0 (hash.length - 1) 0
    (fun _ _ ordered inside => hashAt_le_hashAt sorted ordered inside) le_rfl (by omega)
    (by omega) with ⟨none, absent⟩ | ⟨fromStart, toEnd, found⟩
  · constructor
    · intro member
      rcases List.getElem_of_mem member with ⟨i, inside, here⟩
      apply absurd _ (absent i (by omega) (by omega))
      rw [hashAt, List.getD_eq_getElem _ _ inside, here]
    · intro _
      exact none
  · generalize bisect (hashAt hash) h 0 (hash.length - 1) 0 = t at fromStart toEnd found
    have inside : t.toNat < hash.length := by omega
    have here : hash[t.toNat]? = some h := by
      rw [List.getElem?_eq_getElem inside, ← found, hashAt, List.getD_eq_getElem _ _ inside]
    constructor
    · intro _
      exact ⟨t.toNat, by omega, here⟩
    · intro absent
      exact absurd (List.mem_of_getElem? here) absent

end

theorem bisectLoop_finds_duplicate :
    ∃ t, bisectLoop [3, 3, 7, 9, 9] 7 6 0 4 0 = some t ∧ ∃ i : ℕ, t = i ∧
      ([3, 3, 7, 9, 9] : List UInt32)[i]? = some 7 := by
  rcases @bisectLoop_finds [3, 3, 7, 9, 9] 6 7 (by decide) (by decide) (by decide) with
    ⟨t, done, found, -⟩
  exact ⟨t, done, found (by decide)⟩

end Linguafranca.Ipshark2
