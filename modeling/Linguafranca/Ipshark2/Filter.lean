import Linguafranca.Ipshark2.Devset
import Linguafranca.Support.SelectionSort
import Mathlib.Data.List.GetD

/-!
# The names in the device set of ipshark2

`__devset_order` sorts the records and their hashes by one permutation, and the bisection
finds an index with a given hash when there is one. The name at that index is the only one
that is compared, so that the filter decides membership exactly when no two different names
share a hash.
-/

namespace Linguafranca.Ipshark2

open SelectionSort

section

variable {jhash : List UInt8 → UInt32 → UInt32} {data : Data} {n : ℕ} {hash : ℕ → UInt32}
  {h : UInt32} {name : ℕ → List UInt8} {low high t : Int}

/-! ## The order -/

/-- The sort compares the hashes as numbers. -/
def hashKey (hash : ℕ → UInt32) (i : ℕ) : ℕ :=
  (hash i).toNat

/-- The order in which the sort leaves the first `n` hashes. -/
abbrev hashOrder (hash : ℕ → UInt32) (n : ℕ) : ℕ → Equiv.Perm ℕ :=
  order (hashKey hash) n

/-- The scan of `__devset_order` for an index with a smallest hash. -/
theorem scan_eq_smallest (hash : ℕ → UInt32) (i n : ℕ) :
    (List.range' (i + 1) (n - (i + 1))).foldl
      (fun small j => if hash j < hash small then j else small) i =
      smallest (hashKey hash) i (behind i n) := by
  simp only [UInt32.lt_iff_toNat_lt]
  rfl

theorem orderPass_comp (name : ℕ → List UInt8) (hash : ℕ → UInt32) (n i : ℕ) :
    orderPass true n (name ∘ hashOrder hash n i, hash ∘ hashOrder hash n i) i =
      some (name ∘ hashOrder hash n (i + 1), hash ∘ hashOrder hash n (i + 1)) := by
  have swap : ∀ {Item : Type} (f : ℕ → Item) (small : ℕ),
      Function.update (Function.update f i (f small)) small (f i) = f ∘ Equiv.swap i small := by
    intro Item f small
    rw [Equiv.comp_swap_eq_update]
    by_cases same : small = i
    · subst same
      simp
    · exact Function.update_comm (Ne.symm same) _ _ _
  have small : (List.range' (i + 1) (n - (i + 1))).foldl
      (fun small j => if (hash ∘ hashOrder hash n i) j < (hash ∘ hashOrder hash n i) small then j
        else small) i = smallest (hashKey hash ∘ hashOrder hash n i) i (behind i n) :=
    scan_eq_smallest (hash ∘ hashOrder hash n i) i n
  simp only [orderPass, small, Bool.not_true, Bool.false_eq_true, if_false, swap]
  split
  · next same =>
      simp only [hashOrder, order, same, Equiv.swap_self]
      rfl
  · rfl

theorem foldlM_orderPass (name : ℕ → List UInt8) (hash : ℕ → UInt32) (n count : ℕ) :
    (List.range count).foldlM (orderPass true n) (name, hash) =
      some (name ∘ hashOrder hash n count, hash ∘ hashOrder hash n count) := by
  induction count with
  | zero => rfl
  | succ count ih =>
      rw [List.range_succ, List.foldlM_append, ih]
      simp only [Option.bind_eq_bind, Option.bind_some, List.foldlM_cons, List.foldlM_nil,
        orderPass_comp]
      rfl

/-! ## The search -/

/-- On sorted hashes the search finds an index with the hash or there is none. -/
theorem bisect_spec (sorted : ∀ i j : ℕ, i ≤ j → j < n → hash i ≤ hash j) (start : 0 ≤ low)
    (some : low ≤ high) (inside : high < n) :
    bisect hash h low high t = -1 ∧
        (∀ k : ℕ, low ≤ k → (k : Int) ≤ high → hash k ≠ h) ∨
      low ≤ bisect hash h low high t ∧ bisect hash h low high t ≤ high ∧
        hash (bisect hash h low high t).toNat = h := by
  fun_induction bisect hash h low high t with
  | case1 low high t nonempty between mid below ih =>
      have middle : low ≤ mid ∧ mid ≤ high := by omega
      have apart : low ≠ mid := by
        intro same
        rw [← same] at below
        exact UInt32.lt_irrefl h (UInt32.lt_trans below between.2)
      rcases ih start (by omega) (by omega) with ⟨none, absent⟩ | ⟨from_low, to_mid, found⟩
      · left
        refine ⟨none, ?_⟩
        intro k from_low to_high
        by_cases before : (k : Int) ≤ mid - 1
        · exact absent k from_low before
        · have above := sorted mid.toNat k (by omega) (by omega)
          rintro rfl
          exact UInt32.lt_irrefl _ (UInt32.lt_of_lt_of_le below above)
      · exact Or.inr ⟨from_low, by omega, found⟩
  | case2 low high t nonempty between mid notBelow above ih =>
      have middle : low ≤ mid ∧ mid ≤ high := by omega
      have apart : mid ≠ high := by
        intro same
        rw [same] at above
        exact UInt32.lt_irrefl h (UInt32.lt_trans between.1 above)
      rcases ih (by omega) (by omega) inside with ⟨none, absent⟩ | ⟨from_mid, to_high, found⟩
      · left
        refine ⟨none, ?_⟩
        intro k from_low to_high
        by_cases behind : mid + 1 ≤ (k : Int)
        · exact absent k behind to_high
        · have below := sorted k mid.toNat (by omega) (by omega)
          rintro rfl
          exact UInt32.lt_irrefl _ (UInt32.lt_of_lt_of_le above below)
      · exact Or.inr ⟨by omega, to_high, found⟩
  | case3 low high t nonempty between mid notBelow notAbove =>
      have middle : low ≤ mid ∧ mid ≤ high := by omega
      have same := UInt32.le_antisymm (UInt32.not_lt.mp notBelow) (UInt32.not_lt.mp notAbove)
      exact Or.inr ⟨middle.1, middle.2, same⟩
  | case4 low high t nonempty notBetween last =>
      exact Or.inr ⟨nonempty, le_rfl, last.symm⟩
  | case5 low high t nonempty notBetween notLast first =>
      exact Or.inr ⟨le_rfl, nonempty, first.symm⟩
  | case6 low high t nonempty notBetween notLast notFirst =>
      left
      refine ⟨rfl, ?_⟩
      intro k from_low to_high same
      have above := sorted low.toNat k (by omega) (by omega)
      have below := sorted k high.toNat (by omega) (by omega)
      rw [same] at above below
      exact notBetween ⟨UInt32.lt_of_le_of_ne below notLast,
        UInt32.lt_of_le_of_ne above (Ne.symm notFirst)⟩
  | case7 low high t empty => exact absurd some empty

/-! ## Installing a list -/

/-- The hash of a name in a record or of a string asked for. -/
def nameHash (jhash : List UInt8 → UInt32 → UInt32) (bytes : List UInt8) : UInt32 :=
  jhash (cString bytes) devNameHashInitval

theorem recordHash_eq {size i : ℕ} (inside : i < n) (ends : TerminatedIn size (name i)) :
    recordHash jhash n name i = nameHash jhash (name i) := by
  obtain ⟨rest, count⟩ : ∃ rest, n - i = rest + 1 := ⟨n - i - 1, by omega⟩
  rw [recordHash, count, List.range'_succ, List.flatMap_cons, cString_field_append ends]
  rfl

/-- The records of a list, one behind the other. -/
def records (names : List (List UInt8)) : ℕ → List UInt8 :=
  fun i => names.getD i []

/-- The set holds the names of a list in some order, with their hashes in order. -/
structure Installed (jhash : List UInt8 → UInt32 → UInt32) (black : Bool) (size : ℕ)
    (names : List (List UInt8)) (data : Data) (name : ℕ → List UInt8) (hash : ℕ → UInt32) :
    Prop where
  set : data = ⟨black, names.length, size, some name, some hash⟩
  listed : ∀ i < names.length, name i ∈ names
  every : ∀ bytes ∈ names, ∃ i < names.length, name i = bytes
  paired : ∀ i < names.length, hash i = nameHash jhash (name i)
  sorted : ∀ i j, i ≤ j → j < names.length → hash i ≤ hash j

theorem installed_devsetInit {size : ℕ} {names : List (List UInt8)} (black : Bool)
    (positive : 0 < size) (ends : ∀ bytes ∈ names, TerminatedIn size bytes) (data : Data) :
    ∃ after name hash,
      devsetInit jhash true true true black names.length size (records names) data =
        some (0, after) ∧
      Installed jhash black size names after name hash := by
  let hash : ℕ → UInt32 :=
    fun i => if i < names.length then recordHash jhash names.length (records names) i else 0
  let σ := hashOrder hash names.length names.length
  have member : ∀ i < names.length, records names i ∈ names := by
    intro i inside
    rw [records, List.getD_eq_getElem _ [] inside]
    exact List.getElem_mem inside
  have moved : ∀ i < names.length, σ i < names.length :=
    fun i inside => order_lt le_rfl inside
  refine ⟨_, records names ∘ σ, hash ∘ σ, ?_, rfl, ?_, ?_, ?_, ?_⟩
  · have valid : ¬((names.length : Int) < 0 ∨ (size : Int) ≤ 0) := by omega
    simp only [devsetInit, devsetCreate, if_neg valid, Bool.not_true, Bool.false_eq_true, if_false,
      if_true, devsetCopy, Option.map_some, devsetOrder, Int.toNat_natCast, foldlM_orderPass]
    rfl
  · intro i inside
    exact member (σ i) (moved i inside)
  · intro bytes listed
    rcases List.getElem_of_mem listed with ⟨j, inside, rfl⟩
    rcases @exists_order_eq _ _ (hashKey hash) _ _ inside with ⟨i, below, same⟩
    refine ⟨i, below, ?_⟩
    change records names (σ i) = _
    rw [show σ i = j from same, records, List.getD_eq_getElem _ [] inside]
  · intro i inside
    have here := moved i inside
    change (if σ i < names.length then _ else _) = _
    rw [if_pos here, recordHash_eq here (ends _ (member _ here))]
    rfl
  · intro i j ordered inside
    have keys := @sorted_order ℕ _ (hashKey hash) _ _ _ ordered inside
    exact UInt32.le_iff_toNat_le.mpr keys

/-! ## The decision -/

/-- The filter answers as its mode says for a listed name and the opposite for any other. -/
def Decides (jhash : List UInt8 → UInt32 → UInt32) (black : Bool) (names : List (List UInt8))
    (data : Data) (s : List UInt8) : Prop :=
  devsetIgnore jhash s data = if cString s ∈ names.map cString then black else !black

/-- For each hash there is one name that a string with that hash is compared with. -/
theorem devsetIgnore_of_installed {black : Bool} {size : ℕ} {names : List (List UInt8)}
    (ends : ∀ bytes ∈ names, TerminatedIn size bytes)
    (installed : Installed jhash black size names data name hash) (h : UInt32) :
    (∀ bytes ∈ names, nameHash jhash bytes ≠ h) ∧
        (∀ s, nameHash jhash s = h → devsetIgnore jhash s data = !black) ∨
      ∃ bytes ∈ names, nameHash jhash bytes = h ∧
        ∀ s, TerminatedIn size s → nameHash jhash s = h →
          devsetIgnore jhash s data = if cString s = cString bytes then black else !black := by
  obtain rfl := installed.set
  by_cases empty : names.length = 0
  · left
    obtain rfl := List.length_eq_zero_iff.mp empty
    exact ⟨fun bytes absent => absurd absent List.not_mem_nil, fun s _ => rfl⟩
  · have some : ¬(names.length : Int) - 1 < 0 := by omega
    rcases @bisect_spec names.length hash h 0 (names.length - 1) 0 installed.sorted le_rfl
      (by omega) (by omega) with ⟨none, absent⟩ | ⟨from_start, to_end, found⟩
    · left
      constructor
      · intro bytes listed same
        rcases installed.every bytes listed with ⟨i, inside, rfl⟩
        apply absent i (by omega) (by omega)
        rw [installed.paired i inside, same]
      · rintro s rfl
        simp only [nameHash] at none
        simp only [devsetIgnore, if_neg some, none, if_true]
    · right
      generalize result : bisect hash h 0 (names.length - 1) 0 = t at from_start to_end found
      have inside : t.toNat < names.length := by omega
      have listed := installed.listed t.toNat inside
      refine ⟨name t.toNat, listed, ?_, ?_⟩
      · rw [← installed.paired t.toNat inside, found]
      · rintro s sEnds rfl
        simp only [nameHash] at result
        have known : ¬t = -1 := by omega
        simp only [devsetIgnore, if_neg some, result, if_neg known, Int.toNat_natCast,
          strncmpEq_iff sEnds (ends _ listed)]

/-- A listed string that shares no hash with another name is found, and a string that is not
listed never is. -/
theorem decides_of_alone {black : Bool} {size : ℕ} {names : List (List UInt8)}
    (ends : ∀ bytes ∈ names, TerminatedIn size bytes)
    (installed : Installed jhash black size names data name hash) {s : List UInt8}
    (sEnds : TerminatedIn size s)
    (alone : cString s ∈ names.map cString → ∀ bytes ∈ names,
      nameHash jhash bytes = nameHash jhash s → cString bytes = cString s) :
    Decides jhash black names data s := by
  simp only [Decides]
  rcases devsetIgnore_of_installed ends installed (nameHash jhash s) with
    ⟨none, answer⟩ | ⟨bytes, listed, same, answer⟩
  · rw [answer s rfl, if_neg]
    intro member
    rcases List.mem_map.mp member with ⟨bytes, listed, equal⟩
    apply none bytes listed
    simp only [nameHash, equal]
  · rw [answer s sEnds rfl]
    by_cases member : cString s ∈ names.map cString
    · rw [if_pos member, if_pos (alone member bytes listed same).symm]
    · rw [if_neg member, if_neg]
      intro equal
      exact member (equal ▸ List.mem_map_of_mem listed)

/-- The filter decides membership of every string exactly when no two different names of the
list share a hash. In any list it goes wrong only for a name that shares its hash. -/
theorem decides_iff_no_collision {size : ℕ} {names : List (List UInt8)} (black : Bool)
    (positive : 0 < size) (ends : ∀ bytes ∈ names, TerminatedIn size bytes) (data : Data) :
    ∃ after,
      devsetInit jhash true true true black names.length size (records names) data =
        some (0, after) ∧
      (∀ s, TerminatedIn size s →
        (cString s ∈ names.map cString → ∀ bytes ∈ names,
          nameHash jhash bytes = nameHash jhash s → cString bytes = cString s) →
        Decides jhash black names after s) ∧
      ((∀ s, TerminatedIn size s → Decides jhash black names after s) ↔
        ∀ first ∈ names, ∀ second ∈ names, nameHash jhash first = nameHash jhash second →
          cString first = cString second) := by
  rcases @installed_devsetInit jhash _ _ black positive ends data with
    ⟨after, name, hash, done, installed⟩
  refine ⟨after, done, fun s sEnds => decides_of_alone ends installed sEnds, ?_⟩
  constructor
  · intro decides
    -- both names are compared with the one name that the search finds for their hash
    have compared : ∀ bytes ∈ names, ∀ found ∈ names, (∀ s, TerminatedIn size s →
        nameHash jhash s = nameHash jhash bytes →
        devsetIgnore jhash s after = if cString s = cString found then black else !black) →
        cString bytes = cString found := by
      intro bytes listed found _ answer
      by_contra other
      have right := decides bytes (ends bytes listed)
      rw [Decides, answer bytes (ends bytes listed) rfl, if_neg other,
        if_pos (List.mem_map_of_mem listed)] at right
      exact Bool.not_ne_self black right
    intro first firstListed second secondListed same
    rcases devsetIgnore_of_installed ends installed (nameHash jhash first) with
      ⟨none, -⟩ | ⟨found, listed, -, answer⟩
    · exact absurd rfl (none first firstListed)
    · rw [compared first firstListed found listed answer]
      rw [same] at answer
      exact (compared second secondListed found listed answer).symm
  · intro apart s sEnds
    apply decides_of_alone ends installed sEnds
    intro member bytes listed same
    rcases List.mem_map.mp member with ⟨own, ownListed, equal⟩
    rw [← equal]
    apply apart bytes listed own ownListed
    calc nameHash jhash bytes = nameHash jhash s := same
      _ = nameHash jhash own := by simp only [nameHash, equal]

end

/-- Two names in fields of four bytes. -/
def collidingNames : List (List UInt8) :=
  [[1, 0, 0, 0], [2, 0, 0, 0]]

/-- With one hash for all names the first of two is not found. -/
theorem collidingNames_missed :
    ∃ after,
      devsetInit (fun _ _ => 0) true true true true collidingNames.length (4 : ℕ)
          (records collidingNames) Data.initial = some (0, after) ∧
        ¬Decides (fun _ _ => 0) true collidingNames after [1, 0, 0, 0] := by
  refine ⟨_, rfl, ?_⟩
  simp only [Decides, devsetIgnore]
  rw [bisect]
  decide

/-- A hash that tells the two names apart. -/
theorem collidingNames_apart :
    ∃ after,
      devsetInit (fun bytes _ => UInt32.ofNat (bytes.map UInt8.toNat).sum) true true true true
          collidingNames.length (4 : ℕ) (records collidingNames) Data.initial =
        some (0, after) ∧
      ∀ s, TerminatedIn 4 s →
        Decides (fun bytes _ => UInt32.ofNat (bytes.map UInt8.toNat).sum) true collidingNames
          after s := by
  rcases @decides_iff_no_collision (fun bytes _ => UInt32.ofNat (bytes.map UInt8.toNat).sum) 4
    collidingNames true (by decide) (by decide) Data.initial with ⟨after, done, -, decides⟩
  exact ⟨after, done, decides.mpr (by decide)⟩

end Linguafranca.Ipshark2
