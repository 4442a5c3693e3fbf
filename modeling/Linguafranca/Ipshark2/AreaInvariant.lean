import Linguafranca.Ipshark2.AreaSteps
import Linguafranca.Support.Custody

/-!
# What is true of the shared area between two steps

At each moment an index stands in a fifo of its CPU, is with the client, or belongs to one
put (`AreaInv`). So nobody writes an element that somebody else reads: a put only writes the
element of its own index, the client only releases an index it gives back.
-/

namespace Linguafranca.Ipshark2

open Run Interleaving

/-! ## What never changes -/

/-- The range of a CPU and the sizes of its fifos. -/
def QueueData.shape (c : QueueData) : ℕ × ℕ × ℕ × ℕ :=
  (c.start, c.endIdx, c.idle.size, c.ready.size)

/-- What of the pool no step changes: the ranges of the CPUs and the sizes of their queues. -/
def IpQueue.shape (q : IpQueue) : List (ℕ × ℕ × ℕ × ℕ) :=
  q.qptr.map QueueData.shape

/-- The index belongs to the CPU. -/
def Home (q : IpQueue) (cpu i : ℕ) : Prop :=
  ∃ c, q.qptr[cpu]? = some c ∧ c.InRange i

section Shape

variable {q q' : IpQueue} {c c' : QueueData} {cpu i lo hi : ℕ} {cpus cpus' : List QueueData}

theorem sameShape_iff_shape : SameShape c c' ↔ c'.shape = c.shape := by
  simp only [QueueData.shape, Prod.mk.injEq]
  exact ⟨fun same => ⟨same.start, same.endIdx, same.idleSize, same.readySize⟩,
    fun ⟨start, endIdx, idle, ready⟩ => ⟨start, endIdx, idle, ready⟩⟩

theorem shape_set (present : cpus[cpu]? = some c) (same : SameShape c c') :
    (cpus.set cpu c').map QueueData.shape = cpus.map QueueData.shape := by
  rw [List.map_set, sameShape_iff_shape.mp same]
  apply List.ext_getElem?
  intro k
  rw [List.getElem?_set]
  split
  · next here =>
      rw [← here, List.getElem?_map, present]
      have inside := (List.getElem?_eq_some_iff.mp present).1
      simp [inside]
  · rfl

theorem length_eq_of_shape (same : q'.shape = q.shape) : q'.qptr.length = q.qptr.length := by
  have lengths := congrArg List.length same
  simpa [IpQueue.shape] using lengths

theorem Home.congr (home : Home q cpu i) (same : q'.shape = q.shape) : Home q' cpu i := by
  rcases home with ⟨c, present, inside⟩
  have shapes := congrArg (fun shapes => shapes[cpu]?) same
  simp only [IpQueue.shape, List.getElem?_map, present, Option.map_some] at shapes
  rcases Option.map_eq_some_iff.mp shapes with ⟨c', present', shape⟩
  exact ⟨c', present', (sameShape_iff_shape.mpr shape).inRange_iff.mpr inside⟩

theorem Consecutive.congr (ranges : Consecutive lo cpus hi)
    (same : cpus'.map QueueData.shape = cpus.map QueueData.shape) : Consecutive lo cpus' hi := by
  induction cpus generalizing lo cpus' with
  | nil =>
      rw [List.map_nil, List.map_eq_nil_iff] at same
      rwa [same]
  | cons c cpus ih =>
      rcases List.map_eq_cons_iff.mp same with ⟨c', rest, rfl, shape, later⟩
      rcases ranges with ⟨starts, ordered, ranges⟩
      have shaped := sameShape_iff_shape.mpr shape
      refine ⟨shaped.start.trans starts, ?_, ?_⟩
      · rw [shaped.start, shaped.endIdx]
        exact ordered
      · rw [shaped.endIdx]
        exact ih ranges later

/-- An index has one CPU. -/
theorem Home.unique (ranges : Consecutive 0 q.qptr hi) {other : ℕ} (home : Home q cpu i)
    (home' : Home q other i) : cpu = other := by
  rcases home with ⟨c, present, inside⟩
  rcases home' with ⟨c', present', inside'⟩
  rcases split_of_getElem? present with ⟨before, after, queues, position, -⟩
  rw [queues] at ranges present'
  by_contra differ
  refine ranges.apart inside c' (mem_of_getElem?_ne present' ?_) inside'
  rw [position]
  exact Ne.symm differ

theorem exists_home (ranges : Consecutive 0 q.qptr hi) (inside : i < hi) :
    ∃ cpu, Home q cpu i := by
  rcases ranges.covers (Nat.zero_le i) inside with ⟨before, c, after, queues, here⟩
  exact ⟨before.length, c, by simp [queues], here⟩

/-- Behind the CPU of an index no CPU has the index 0. -/
theorem not_home_zero (ranges : Consecutive 0 q.qptr hi) {later : ℕ} (home : Home q cpu i)
    (behind : cpu < later) : ¬Home q later 0 := by
  rcases home with ⟨c, present, inside⟩
  rintro ⟨c', present', low, -⟩
  rcases split_of_getElem? present with ⟨before, after, queues, position, -⟩
  rw [queues] at ranges present'
  rw [List.getElem?_append_right (by omega), List.getElem?_cons, if_neg (by omega)] at present'
  have above := (ranges.around inside).2 c' (List.mem_of_getElem? present')
  omega

end Shape

/-! ## The places -/

/-- The indices in the fifos. -/
def IpQueue.places (q : IpQueue) : List ℕ :=
  q.qptr.flatMap fun c => c.idle.items ++ c.ready.items

section Places

variable {q : IpQueue} {c : QueueData} {cpu : ℕ}

/-- The fifos of one CPU and those of the others. -/
theorem exists_places (present : q.qptr[cpu]? = some c) :
    ∃ rest, q.places.Perm (c.idle.items ++ c.ready.items ++ rest) ∧
      ∀ c' : QueueData, ((q.qptr.set cpu c').flatMap fun c => c.idle.items ++ c.ready.items).Perm
        (c'.idle.items ++ c'.ready.items ++ rest) := by
  rcases split_of_getElem? present with ⟨before, after, queues, -, set⟩
  have around : ∀ c' : QueueData,
      ((before ++ c' :: after).flatMap fun c => c.idle.items ++ c.ready.items).Perm
        (c'.idle.items ++ c'.ready.items ++ (before ++ after).flatMap fun c =>
          c.idle.items ++ c.ready.items) := by
    intro c'
    have front : (before ++ c' :: after).Perm (c' :: (before ++ after)) := List.perm_middle
    exact front.flatMap_right _
  refine ⟨(before ++ after).flatMap fun c => c.idle.items ++ c.ready.items, ?_, ?_⟩
  · rw [IpQueue.places, queues]
    exact around c
  · intro c'
    rw [set c']
    exact around c'

theorem mem_places_iff {i : ℕ} :
    i ∈ q.places ↔ ∃ c ∈ q.qptr, i ∈ c.idle.items ∨ i ∈ c.ready.items := by
  simp [IpQueue.places]

end Places

/-- The fifos of a CPU have indices of its range, free ones and ones in use. -/
structure QueueInv (elem : ℕ → IpKeyInfoWrap) (c : QueueData) : Prop where
  home : ∀ i ∈ c.idle.items ++ c.ready.items, c.InRange i
  idleFree : ∀ i ∈ c.idle.items, (elem i).state ≠ .inuse
  readyInuse : ∀ i ∈ c.ready.items, (elem i).state = .inuse
  idleSize : c.endIdx - c.start ≤ c.idle.size
  readySize : c.endIdx - c.start ≤ c.ready.size

/-! ## What a thread relies on -/

/-- The indices are in use and stand at the start of `idx_array`. -/
def Copied (q : IpQueue) (copied : List ℕ) : Prop :=
  (∀ i ∈ copied, (q.m.elem i).state = .inuse) ∧ q.m.idxArray.take copied.length = copied

/-- What a point of the client knows of the pool it goes on with. -/
def ClientTask.Relies (q : IpQueue) : ClientTask → Prop
  | user => True
  | moving _ copied num => Copied q copied ∧ copied.length + num.toNat ≤ ipsIdxArraySize
  | moved copied => Copied q copied
  | taking left => ∀ i ∈ left, (q.m.elem i).state = .inuse
  | scanning addr false cpu left => (q.m.elem addr).state = .inuse ∧
      (∀ k < cpu, ¬Home q k addr) ∧ ∀ i ∈ left, (q.m.elem i).state = .inuse
  | scanning addr true cpu left => (∃ k < cpu, Home q k addr) ∧
      ∀ i ∈ left, (q.m.elem i).state = .inuse
  | releasing addr handled cpu left => handled = false ∧ Home q cpu addr ∧
      ∀ i ∈ addr :: left, (q.m.elem i).state = .inuse
  | giving addr handled cpu left => handled = false ∧ Home q cpu addr ∧
      (q.m.elem addr).state ≠ .inuse ∧ ∀ i ∈ left, (q.m.elem i).state = .inuse

/-- What a point of a put knows of the pool it goes on with. -/
def AreaPc.Relies (q : IpQueue) : AreaPc → Prop
  | popping cpu _ | alarming cpu => cpu < q.qptr.length
  | popped cpu _ s | copying cpu _ s _ => Home q cpu s ∧ (q.m.elem s).state ≠ .inuse
  | counting cpu src s | marking cpu src s => Home q cpu s ∧ (q.m.elem s).state ≠ .inuse ∧
      (q.m.elem s).info = src
  | queueing cpu src s => Home q cpu s ∧ (q.m.elem s).state = .inuse ∧ (q.m.elem s).info = src
  | refused _ _ | fault => False
  | client hand task => (∀ i ∈ hand, (q.m.elem i).state = .inuse) ∧ task.Relies q
  | _ => True

/-- The indices whose elements a thread looks at. -/
def AreaPc.touches (pc : AreaPc) : List ℕ :=
  pc.owns.toList ++ pc.keeps

section Relies

variable {q q' : IpQueue} {pc : AreaPc} {task : ClientTask} {copied : List ℕ}

theorem Copied.frame (holds : Copied q copied)
    (elem : ∀ i ∈ copied, q'.m.elem i = q.m.elem i) (array : q'.m.idxArray = q.m.idxArray) :
    Copied q' copied := by
  refine ⟨?_, by rw [array]; exact holds.2⟩
  intro i member
  rw [elem i member]
  exact holds.1 i member

theorem ClientTask.Relies.frame (relies : task.Relies q) (shape : q'.shape = q.shape)
    (elem : ∀ i ∈ task.keeps, q'.m.elem i = q.m.elem i) (array : q'.m.idxArray = q.m.idxArray) :
    task.Relies q' := by
  have inuse : ∀ indices : List ℕ, (∀ i ∈ indices, i ∈ task.keeps) →
      (∀ i ∈ indices, (q.m.elem i).state = .inuse) →
      ∀ i ∈ indices, (q'.m.elem i).state = .inuse := by
    intro indices within before i member
    rw [elem i (within i member)]
    exact before i member
  cases task with
  | user => trivial
  | moving cpu copied num => exact ⟨relies.1.frame elem array, relies.2⟩
  | moved copied => exact Copied.frame relies elem array
  | taking left => exact inuse left (fun _ => id) relies
  | scanning addr handled cpu left =>
      cases handled with
      | false =>
          rcases relies with ⟨own, earlier, later⟩
          refine ⟨?_, ?_, inuse left (fun i => List.mem_cons_of_mem addr) later⟩
          · rw [elem addr List.mem_cons_self]
            exact own
          · exact fun k below home => earlier k below (home.congr shape.symm)
      | true =>
          rcases relies with ⟨⟨k, below, home⟩, later⟩
          exact ⟨⟨k, below, home.congr shape⟩, inuse left (fun _ => id) later⟩
  | releasing addr handled cpu left =>
      rcases relies with ⟨rfl, home, later⟩
      exact ⟨rfl, home.congr shape, inuse _ (fun _ => id) later⟩
  | giving addr handled cpu left =>
      rcases relies with ⟨rfl, home, own, later⟩
      refine ⟨rfl, home.congr shape, ?_, inuse left (fun i => List.mem_cons_of_mem addr) later⟩
      rw [elem addr List.mem_cons_self]
      exact own

/-- What a thread relies on is not disturbed where its elements are left alone. -/
theorem AreaPc.Relies.frame (relies : pc.Relies q) (shape : q'.shape = q.shape)
    (elem : ∀ i ∈ pc.touches, q'.m.elem i = q.m.elem i)
    (array : pc.IsClient → q'.m.idxArray = q.m.idxArray) : pc.Relies q' := by
  cases pc with
  | popping cpu src | alarming cpu =>
      show cpu < q'.qptr.length
      rw [length_eq_of_shape shape]
      exact relies
  | popped cpu src s | copying cpu src s half =>
      have same := elem s List.mem_cons_self
      rw [AreaPc.Relies, same]
      exact ⟨relies.1.congr shape, relies.2⟩
  | counting cpu src s | marking cpu src s | queueing cpu src s =>
      have same := elem s List.mem_cons_self
      rw [AreaPc.Relies, same]
      exact ⟨relies.1.congr shape, relies.2⟩
  | refused | fault => exact relies
  | client hand task =>
      constructor
      · intro i member
        rw [elem i (List.mem_append_left task.keeps member)]
        exact relies.1 i member
      · apply relies.2.frame shape ?_ (array trivial)
        exact fun i member => elem i (List.mem_append_right hand member)
  | resting | arrived | leaving => trivial

end Relies

/-! ## The invariant -/

/-- Each CPU is claimed by its put, there is one client, the ranges follow one another, and every
index is in one place. -/
structure AreaInv (s : Areas) : Prop where
  claims : Claims s.shared.putting (fun t => (s.pc t).cpu)
  one : ∀ t, (s.pc t).IsClient ↔ t = 0
  ranges : Consecutive 0 s.shared.pool.qptr s.shared.pool.m.ipKeyInfoTotalSize
  queues : ∀ c ∈ s.shared.pool.qptr, QueueInv s.shared.pool.m.elem c
  custody : Custody {i | i < s.shared.pool.m.ipKeyInfoTotalSize}
    (s.shared.pool.places ++ (s.pc 0).keeps) (fun t => (s.pc t).owns) (fun _ => none)
  relies : ∀ t, (s.pc t).Relies s.shared.pool

section Use

variable {s : Areas} {t u cpu i : ℕ} {c : QueueData}

theorem keeps_of_ne_client {pc : AreaPc} (other : ¬pc.IsClient) : pc.keeps = [] := by
  cases pc with
  | client => exact absurd trivial other
  | _ => rfl

theorem owns_of_client {pc : AreaPc} (client : pc.IsClient) : pc.owns = none := by
  cases pc with
  | client => rfl
  | _ => exact absurd client id

theorem AreaInv.zero_of_keeps (inv : AreaInv s) (kept : i ∈ (s.pc t).keeps) : t = 0 := by
  by_contra other
  rw [keeps_of_ne_client fun client => other ((inv.one t).mp client)] at kept
  exact List.not_mem_nil kept

/-- The client has an index that is in no fifo and belongs to no put. -/
theorem AreaInv.off_of_keeps (inv : AreaInv s) (kept : i ∈ (s.pc t).keeps) :
    i ∉ s.shared.pool.places ∧ ∀ u, (s.pc u).owns ≠ some i := by
  rw [inv.zero_of_keeps kept] at kept
  have distinct := List.nodup_append.mp inv.custody.nodup
  refine ⟨fun queued => distinct.2.2 i queued i kept rfl, ?_⟩
  exact fun u owned => inv.custody.apart u i owned (List.mem_append_right _ kept)

/-- The index of a put is in no fifo and not with the client. -/
theorem AreaInv.off_of_owns (inv : AreaInv s) (owned : (s.pc t).owns = some i) :
    i ∉ s.shared.pool.places ∧ ∀ u, i ∉ (s.pc u).keeps := by
  have off := inv.custody.apart t i owned
  rw [List.mem_append, not_or] at off
  exact ⟨off.1, fun u kept => (inv.off_of_keeps kept).2 t owned⟩

/-- Two threads do not look at the same element. -/
theorem AreaInv.touches_apart (inv : AreaInv s) (other : u ≠ t)
    (mine : i ∈ (s.pc t).touches) : i ∉ (s.pc u).touches := by
  intro theirs
  rw [AreaPc.touches, List.mem_append, Option.mem_toList] at mine theirs
  rcases mine with owned | kept
  · rcases theirs with owned' | kept'
    · exact other (inv.custody.once u t i owned' owned)
    · exact (inv.off_of_owns owned).2 u kept'
  · rcases theirs with owned' | kept'
    · exact (inv.off_of_keeps kept).2 u owned'
    · exact other ((inv.zero_of_keeps kept').trans (inv.zero_of_keeps kept).symm)

theorem AreaInv.lt_of_touches (inv : AreaInv s) (touched : i ∈ (s.pc t).touches) :
    i < s.shared.pool.m.ipKeyInfoTotalSize := by
  rw [AreaPc.touches, List.mem_append, Option.mem_toList] at touched
  rcases touched with owned | kept
  · exact inv.custody.owned t i owned
  · rw [inv.zero_of_keeps kept] at kept
    exact inv.custody.kept i (List.mem_append_right _ kept)

theorem lt_length_of_home {q : IpQueue} (home : Home q cpu i) : cpu < q.qptr.length := by
  rcases home with ⟨c, present, -⟩
  exact (List.getElem?_eq_some_iff.mp present).1

/-- A thread can take its next step. -/
theorem AreaInv.usable (inv : AreaInv s) (t : ℕ) : (s.pc t).Usable s.shared := by
  have relies := inv.relies t
  have inside : ∀ i ∈ (s.pc t).touches, i < s.shared.pool.m.ipKeyInfoTotalSize :=
    fun i => inv.lt_of_touches
  generalize s.pc t = pc at relies inside
  cases pc with
  | popping | alarming => exact relies
  | queueing cpu src i => exact lt_length_of_home relies.1
  | popped cpu src i | copying cpu src i half | counting cpu src i | marking cpu src i =>
      exact inside i List.mem_cons_self
  | refused | fault => exact absurd relies id
  | client hand task =>
      have held : ∀ i ∈ task.keeps, i < s.shared.pool.m.ipKeyInfoTotalSize :=
        fun i member => inside i (List.mem_append_right hand member)
      cases task with
      | moving cpu copied num => exact relies.2.2
      | taking left => exact held
      | releasing addr handled cpu left =>
          rcases relies.2 with ⟨rfl, _, _⟩
          exact held addr List.mem_cons_self
      | giving addr handled cpu left => exact lt_length_of_home relies.2.2.1
      | _ => trivial
  | _ => trivial

end Use

end Linguafranca.Ipshark2
