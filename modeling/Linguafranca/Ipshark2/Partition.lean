import Linguafranca.Ipshark2.IpQueue
import Linguafranca.Support.Run
import Mathlib.Data.List.Perm.Subperm
import Mathlib.Data.List.Range

/-!
# Every index is in one place

An index moves between the idle fifo of its CPU, the ready fifo of the same CPU and the
client. Each operation changes one CPU at a time, and what holds of a CPU (`CpuInv`) only
looks at the indices of its own range: the ranges follow one another without gaps
(`Consecutive`), so that a change at one CPU leaves the others alone (`PoolInv.update`).

The client is represented by the list of indices it was handed and has not returned.
-/

namespace Linguafranca.Ipshark2

open Run

/-! ## The ranges -/

/-- The ranges follow one another from `lo` to `hi`. -/
def Consecutive : ℕ → List QueueData → ℕ → Prop
  | lo, [], hi => lo = hi
  | lo, c :: cpus, hi => c.start = lo ∧ c.start ≤ c.endIdx ∧ Consecutive c.endIdx cpus hi

section Ranges

variable {lo hi i : ℕ} {c c' : QueueData} {cpus before after : List QueueData}

theorem consecutive_append {first second : List QueueData} :
    Consecutive lo (first ++ second) hi ↔
      ∃ mid, Consecutive lo first mid ∧ Consecutive mid second hi := by
  induction first generalizing lo with
  | nil => simp [Consecutive]
  | cons c cpus ih =>
      simp only [List.cons_append, Consecutive, ih]
      constructor
      · rintro ⟨starts, ordered, mid, left, right⟩
        exact ⟨mid, ⟨starts, ordered, left⟩, right⟩
      · rintro ⟨mid, ⟨starts, ordered, left⟩, right⟩
        exact ⟨starts, ordered, mid, left, right⟩

theorem Consecutive.bounds (consecutive : Consecutive lo cpus hi) :
    lo ≤ hi ∧ ∀ c ∈ cpus, lo ≤ c.start ∧ c.start ≤ c.endIdx ∧ c.endIdx ≤ hi := by
  induction cpus generalizing lo with
  | nil => simp_all [Consecutive]
  | cons c cpus ih =>
      rcases consecutive with ⟨rfl, ordered, rest⟩
      rcases ih rest with ⟨above, inside⟩
      refine ⟨ordered.trans above, ?_⟩
      intro other member
      rcases List.mem_cons.mp member with rfl | later
      · exact ⟨le_rfl, ordered, above⟩
      · rcases inside other later with ⟨lower, order, upper⟩
        exact ⟨ordered.trans lower, order, upper⟩

theorem Consecutive.around (consecutive : Consecutive lo (before ++ c :: after) hi)
    (inside : c.InRange i) :
    (∀ other ∈ before, other.endIdx ≤ i) ∧ ∀ other ∈ after, i < other.start := by
  rcases consecutive_append.mp consecutive with ⟨mid, left, starts, ordered, right⟩
  constructor
  · intro other member
    have upper := (left.bounds.2 other member).2.2
    have lower := inside.1
    omega
  · intro other member
    have lower := (right.bounds.2 other member).1
    have upper := inside.2
    omega

theorem Consecutive.apart (consecutive : Consecutive lo (before ++ c :: after) hi)
    (inside : c.InRange i) : ∀ other ∈ before ++ after, ¬other.InRange i := by
  rcases consecutive.around inside with ⟨below, above⟩
  intro other member
  rcases List.mem_append.mp member with inBefore | inAfter
  · rintro ⟨-, upper⟩
    have := below other inBefore
    omega
  · rintro ⟨lower, -⟩
    have := above other inAfter
    omega

theorem Consecutive.covers (consecutive : Consecutive lo cpus hi) (lower : lo ≤ i)
    (upper : i < hi) : ∃ before c after, cpus = before ++ c :: after ∧ c.InRange i := by
  induction cpus generalizing lo with
  | nil =>
      simp only [Consecutive] at consecutive
      omega
  | cons c cpus ih =>
      rcases consecutive with ⟨rfl, ordered, rest⟩
      rcases Nat.lt_or_ge i c.endIdx with here | beyond
      · exact ⟨[], c, cpus, rfl, lower, here⟩
      · rcases ih rest beyond with ⟨before, other, after, rfl, inside⟩
        exact ⟨c :: before, other, after, rfl, inside⟩

theorem Consecutive.update (consecutive : Consecutive lo (before ++ c :: after) hi)
    (sameStart : c'.start = c.start) (sameEnd : c'.endIdx = c.endIdx) :
    Consecutive lo (before ++ c' :: after) hi := by
  rw [consecutive_append] at consecutive ⊢
  simpa only [Consecutive, sameStart, sameEnd] using consecutive

end Ranges

/-! ## What holds of one CPU -/

/-- The indices of the CPU's range are each in one place; `out` is what the client holds. -/
structure CpuInv (elem : ℕ → IpKeyInfoWrap) (out : List ℕ) (c : QueueData) : Prop where
  once : ∀ i, c.InRange i → c.idle.items.count i + c.ready.items.count i + out.count i = 1
  idleHome : ∀ i ∈ c.idle.items, c.InRange i
  readyHome : ∀ i ∈ c.ready.items, c.InRange i
  idleFree : ∀ i ∈ c.idle.items, (elem i).state ≠ .inuse
  readyInuse : ∀ i ∈ c.ready.items, (elem i).state = .inuse
  idleSize : c.endIdx - c.start ≤ c.idle.size
  readySize : c.endIdx - c.start ≤ c.ready.size

section Cpu

variable {elem elem' : ℕ → IpKeyInfoWrap} {out out' : List ℕ} {c c' : QueueData} {i : ℕ}

/-- Only the indices of the CPU's range matter. -/
theorem CpuInv.frame (inv : CpuInv elem out c)
    (states : ∀ i, c.InRange i → (elem' i).state = (elem i).state)
    (held : ∀ i, c.InRange i → out'.count i = out.count i) : CpuInv elem' out' c where
  once := by
    intro i inside
    rw [held i inside]
    exact inv.once i inside
  idleHome := inv.idleHome
  readyHome := inv.readyHome
  idleFree := by
    intro i member
    rw [states i (inv.idleHome i member)]
    exact inv.idleFree i member
  readyInuse := by
    intro i member
    rw [states i (inv.readyHome i member)]
    exact inv.readyInuse i member
  idleSize := inv.idleSize
  readySize := inv.readySize

theorem CpuInv.not_ready_of_idle (inv : CpuInv elem out c) (idle : i ∈ c.idle.items) :
    i ∉ c.ready.items := by
  intro ready
  have once := inv.once i (inv.idleHome i idle)
  have inIdle := List.count_pos_iff.mpr idle
  have inReady := List.count_pos_iff.mpr ready
  omega

theorem CpuInv.not_held_of_idle (inv : CpuInv elem out c) (idle : i ∈ c.idle.items) : i ∉ out := by
  intro held
  have once := inv.once i (inv.idleHome i idle)
  have inIdle := List.count_pos_iff.mpr idle
  have inOut := List.count_pos_iff.mpr held
  omega

theorem CpuInv.not_ready_of_held (inv : CpuInv elem out c) (inside : c.InRange i)
    (held : i ∈ out) : i ∉ c.ready.items := by
  intro ready
  have once := inv.once i inside
  have inOut := List.count_pos_iff.mpr held
  have inReady := List.count_pos_iff.mpr ready
  omega

/-- Items of the range that leave one index out do not fill it. -/
theorem length_lt_of_count {items : List ℕ} (home : ∀ j ∈ items, c.InRange j)
    (once : ∀ j, c.InRange j → items.count j ≤ 1) (inside : c.InRange i) (absent : i ∉ items) :
    items.length < c.endIdx - c.start := by
  have distinct : (i :: items).Nodup := by
    refine List.nodup_cons.mpr ⟨absent, ?_⟩
    rw [List.nodup_iff_count_le_one]
    intro j
    by_cases member : j ∈ items
    · exact once j (home j member)
    · rw [List.count_eq_zero_of_not_mem member]
      exact Nat.zero_le 1
  have contained : i :: items ⊆ List.range' c.start (c.endIdx - c.start) := by
    intro j member
    have within : c.InRange j := by
      rcases List.mem_cons.mp member with rfl | later
      · exact inside
      · exact home j later
    rcases within with ⟨lower, upper⟩
    rw [List.mem_range'_1]
    omega
  have bound := (distinct.subperm contained).length_le
  simp only [List.length_cons, List.length_range'] at bound
  omega

/-- While an index is idle, or held by the client, the ready fifo has room for it. -/
theorem CpuInv.ready_room (inv : CpuInv elem out c) (inside : c.InRange i)
    (elsewhere : i ∉ c.ready.items) : c.ready.items.length < c.ready.size := by
  refine lt_of_lt_of_le ?_ inv.readySize
  apply length_lt_of_count inv.readyHome ?_ inside elsewhere
  intro j within
  have once := inv.once j within
  omega

theorem CpuInv.idle_room (inv : CpuInv elem out c) (inside : c.InRange i)
    (elsewhere : i ∉ c.idle.items) : c.idle.items.length < c.idle.size := by
  refine lt_of_lt_of_le ?_ inv.idleSize
  apply length_lt_of_count inv.idleHome ?_ inside elsewhere
  intro j within
  have once := inv.once j within
  omega

/-- Same range and same sizes. -/
structure SameShape (c c' : QueueData) : Prop where
  start : c'.start = c.start
  endIdx : c'.endIdx = c.endIdx
  idleSize : c'.idle.size = c.idle.size
  readySize : c'.ready.size = c.ready.size

theorem SameShape.inRange_iff (same : SameShape c c') : c'.InRange i ↔ c.InRange i := by
  simp only [QueueData.InRange, same.start, same.endIdx]

theorem CpuInv.sizes (inv : CpuInv elem out c) (same : SameShape c c') :
    c'.endIdx - c'.start ≤ c'.idle.size ∧ c'.endIdx - c'.start ≤ c'.ready.size := by
  rw [same.start, same.endIdx, same.idleSize, same.readySize]
  exact ⟨inv.idleSize, inv.readySize⟩

theorem CpuInv.accept (inv : CpuInv elem out c) (same : SameShape c c')
    (idle : c.idle.items = i :: c'.idle.items) (ready : c'.ready.items = c.ready.items ++ [i])
    {wrap : IpKeyInfoWrap} (filled : wrap.state = .inuse) :
    CpuInv (Function.update elem i wrap) out c' := by
  have home : c.InRange i := inv.idleHome i (by simp [idle])
  have once := inv.once i home
  have alone : i ∉ c'.idle.items := by
    intro member
    have := List.count_pos_iff.mpr member
    simp only [idle, List.count_cons_self] at once
    omega
  refine ⟨?_, ?_, ?_, ?_, ?_, ?_, ?_⟩
  · intro j inside
    have before := inv.once j (same.inRange_iff.mp inside)
    simp only [idle, ready, List.count_cons, List.count_append, List.count_nil] at before ⊢
    omega
  · intro j member
    exact same.inRange_iff.mpr (inv.idleHome j (by simp [idle, member]))
  · intro j member
    rw [ready, List.mem_append, List.mem_singleton] at member
    rcases member with old | rfl
    · exact same.inRange_iff.mpr (inv.readyHome j old)
    · exact same.inRange_iff.mpr home
  · intro j member
    have other : j ≠ i := by
      rintro rfl
      exact alone member
    rw [Function.update_of_ne other]
    exact inv.idleFree j (by simp [idle, member])
  · intro j member
    by_cases here : j = i
    · subst here
      rwa [Function.update_self]
    · rw [Function.update_of_ne here]
      rw [ready, List.mem_append, List.mem_singleton] at member
      exact inv.readyInuse j (member.resolve_right here)
  · exact (inv.sizes same).1
  · exact (inv.sizes same).2

theorem CpuInv.deliver (inv : CpuInv elem out c) (same : SameShape c c')
    (idle : c'.idle.items = c.idle.items) {moved : List ℕ}
    (ready : c.ready.items = moved ++ c'.ready.items) : CpuInv elem (out ++ moved) c' := by
  refine ⟨?_, ?_, ?_, ?_, ?_, ?_, ?_⟩
  · intro j inside
    have before := inv.once j (same.inRange_iff.mp inside)
    simp only [ready, List.count_append, idle] at before ⊢
    omega
  · intro j member
    rw [idle] at member
    exact same.inRange_iff.mpr (inv.idleHome j member)
  · intro j member
    exact same.inRange_iff.mpr (inv.readyHome j (by simp [ready, member]))
  · intro j member
    rw [idle] at member
    exact inv.idleFree j member
  · intro j member
    exact inv.readyInuse j (by simp [ready, member])
  · exact (inv.sizes same).1
  · exact (inv.sizes same).2

theorem CpuInv.giveBack (inv : CpuInv elem out c) (same : SameShape c c') (inside : c.InRange i)
    (held : i ∈ out) (idle : c'.idle.items = c.idle.items ++ [i])
    (ready : c'.ready.items = c.ready.items) {wrap : IpKeyInfoWrap}
    (released : wrap.state ≠ .inuse) : CpuInv (Function.update elem i wrap) (out.erase i) c' := by
  have once := inv.once i inside
  have positive := List.count_pos_iff.mpr held
  have notReady := inv.not_ready_of_held inside held
  refine ⟨?_, ?_, ?_, ?_, ?_, ?_, ?_⟩
  · intro j within
    have before := inv.once j (same.inRange_iff.mp within)
    simp only [idle, ready, List.count_append, List.count_cons, List.count_nil, List.count_erase]
    by_cases here : i = j
    · subst here
      simp only [beq_self_eq_true, if_true]
      omega
    · simp only [beq_iff_eq, here, if_false]
      omega
  · intro j member
    rw [idle, List.mem_append, List.mem_singleton] at member
    rcases member with old | rfl
    · exact same.inRange_iff.mpr (inv.idleHome j old)
    · exact same.inRange_iff.mpr inside
  · intro j member
    rw [ready] at member
    exact same.inRange_iff.mpr (inv.readyHome j member)
  · intro j member
    by_cases here : j = i
    · subst here
      rwa [Function.update_self]
    · rw [Function.update_of_ne here]
      rw [idle, List.mem_append, List.mem_singleton] at member
      exact inv.idleFree j (member.resolve_right here)
  · intro j member
    rw [ready] at member
    have other : j ≠ i := by
      rintro rfl
      exact notReady member
    rw [Function.update_of_ne other]
    exact inv.readyInuse j member
  · exact (inv.sizes same).1
  · exact (inv.sizes same).2

end Cpu

end Linguafranca.Ipshark2
