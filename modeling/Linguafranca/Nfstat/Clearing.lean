import Linguafranca.Nfstat.Internal
import Mathlib.Tactic.Common

/-!
# Clearing frees every entry once

The walk of `internal.h` dives to a leaf and climbs by the pointers to the parents. It meets the
nodes of a tree in post-order. What it reads to leave a node lies in nodes that come later in
that order, so that a loop body may free each node as soon as the next one is known.
-/

namespace Linguafranca.Nfstat

open PostOrder

universe u v

section Walk

variable {Ptr : Type u} {nodes : Ptr → Option (Links Ptr)} {tree right : BinaryTree Ptr}
  {parent : Option Ptr} {pointer up : Ptr} {turns : ℕ}

/-- The dive ends at the first node in post-order. -/
theorem leftMostLoop_root (linked : Linked nodes parent tree) (top : root tree = some pointer)
    (enough : tree.numNodes ≤ turns) :
    leftMostLoop nodes turns pointer = (postorder tree).head? := by
  induction tree generalizing parent pointer turns with
  | nil => simp [root] at top
  | node value left right ihLeft ihRight =>
      simp only [root, Option.some.injEq] at top
      subst top
      rcases linked with ⟨here, leftLinked, rightLinked⟩
      simp only [BinaryTree.numNodes] at enough
      rcases Nat.exists_eq_succ_of_ne_zero (show turns ≠ 0 by omega) with ⟨turns, rfl⟩
      simp only [leftMostLoop, here, Option.bind_some, postorder, List.head?_append]
      cases leftTop : root left with
      | some child =>
          have first := ihLeft leftLinked leftTop (show left.numNodes ≤ turns by omega)
          have some_node := List.ne_nil_of_mem (mem_postorder_of_root leftTop)
          simp [first, List.head?_eq_some_head some_node]
      | none =>
          obtain rfl := nil_of_root leftTop
          cases rightTop : root right with
          | some child =>
              have first := ihRight rightLinked rightTop (show right.numNodes ≤ turns by omega)
              have some_node := List.ne_nil_of_mem (mem_postorder_of_root rightTop)
              simp [first, List.head?_eq_some_head some_node, postorder]
          | none =>
              obtain rfl := nil_of_root rightTop
              simp [postorder]

theorem nfsRbLeftMost_root (linked : Linked nodes parent tree) (enough : tree.numNodes ≤ turns) :
    nfsRbLeftMost nodes turns (root tree) = some (postorder tree).head? := by
  cases top : root tree with
  | none =>
      obtain rfl := nil_of_root top
      rfl
  | some pointer =>
      have some_node := List.ne_nil_of_mem (mem_postorder_of_root top)
      rw [nfsRbLeftMost, leftMostLoop_root linked top enough,
        List.head?_eq_some_head some_node]
      rfl

/-! ## One step of the walk -/

variable [DecidableEq Ptr]

theorem nfsRbNext_of_no_parent {first second : Option Ptr}
    (here : nodes pointer = some ⟨none, first, second⟩) :
    nfsRbNext nodes turns (some pointer) = some none := by
  simp [nfsRbNext, here]

/-- From the left child the walk goes on to the first node of the right one, or climbs. -/
theorem nfsRbNext_of_left {first second : Option Ptr}
    (here : nodes pointer = some ⟨some up, first, second⟩)
    (above : nodes up = some ⟨parent, some pointer, root right⟩)
    (linked : Linked nodes (some up) right) (enough : right.numNodes ≤ turns) :
    nfsRbNext nodes turns (some pointer) = some ((postorder right).head?.or (some up)) := by
  simp only [nfsRbNext, here, Option.bind_some, above, ne_eq, not_true_eq_false, if_false]
  split
  · next without =>
      obtain rfl := nil_of_root without
      rfl
  · next someNode =>
      rcases Option.ne_none_iff_exists'.mp someNode with ⟨child, top⟩
      have some_node := List.ne_nil_of_mem (mem_postorder_of_root top)
      rw [nfsRbLeftMost_root linked enough, List.head?_eq_some_head some_node]
      rfl

theorem nfsRbNext_of_right {first second atLeft atRight : Option Ptr}
    (here : nodes pointer = some ⟨some up, first, second⟩)
    (above : nodes up = some ⟨parent, atLeft, atRight⟩) (notLeft : atLeft ≠ some pointer) :
    nfsRbNext nodes turns (some pointer) = some (some up) := by
  simp only [nfsRbNext, here, Option.bind_some, above]
  rw [if_pos (Ne.symm notLeft)]

end Walk

section Loop

/-! ## The loop -/

variable {Ptr : Type u} {State : Type v} {nodes : State → Ptr → Option (Links Ptr)}
  {body : State → Ptr → Option State} {s after : State} {tree : BinaryTree Ptr}
  {parent n : Option Ptr} {turns more : ℕ} {pointers : List Ptr}

/-- A loop body that changes no other node than the one it is run for. -/
def KeepsOthers (nodes : State → Ptr → Option (Links Ptr)) (body : State → Ptr → Option State) :
    Prop :=
  ∀ s pos after, body s pos = some after → ∀ pointer ≠ pos, nodes after pointer = nodes s pointer

theorem KeepsOthers.foldlM (keeps : KeepsOthers nodes body)
    (done : pointers.foldlM body s = some after) :
    ∀ pointer ∉ pointers, nodes after pointer = nodes s pointer := by
  induction pointers generalizing s with
  | nil =>
      simp only [List.foldlM_nil, Option.pure_def, Option.some.injEq] at done
      subst done
      intro pointer _
      rfl
  | cons first pointers ih =>
      rw [List.foldlM_cons] at done
      rcases Option.bind_eq_some_iff.mp done with ⟨next, once, rest⟩
      intro pointer outside
      simp only [List.mem_cons, not_or] at outside
      rw [ih rest pointer outside.2]
      exact keeps s first next once pointer outside.1

variable [DecidableEq Ptr]

/-- Where the walk goes from the top of a tree, whatever was done to the nodes below it. -/
def LeavesTo (turns : ℕ) (memory : Ptr → Option (Links Ptr)) (tree : BinaryTree Ptr)
    (n : Option Ptr) : Prop :=
  ∀ pointer, root tree = some pointer →
    ∀ other : Ptr → Option (Links Ptr), (∀ kept ∉ postorder tree, other kept = memory kept) →
      other pointer = memory pointer → nfsRbNext other turns (some pointer) = some n

theorem leavesTo_left {value : Ptr} {left right : BinaryTree Ptr}
    {memory : Ptr → Option (Links Ptr)} (linked : Linked memory parent (.node value left right))
    (distinct : (postorder (.node value left right)).Nodup)
    (enough : right.numNodes ≤ turns) :
    LeavesTo turns memory left ((postorder right).head?.or (some value)) := by
  intro pointer top other same here
  rcases linked with ⟨above, leftLinked, rightLinked⟩
  rcases links_of_root leftLinked top with ⟨first, second, own⟩
  simp only [postorder, List.nodup_append, List.mem_append, List.mem_singleton] at distinct
  rcases distinct with ⟨⟨-, -, apart⟩, -, notBelow⟩
  have aboveKept : other value = memory value := by
    apply same
    intro member
    exact notBelow value (Or.inl member) value rfl rfl
  have rightKept : Linked other (some value) right := by
    apply linked_congr _ rightLinked
    intro kept member
    apply same
    intro fromLeft
    exact apart kept fromLeft kept member rfl
  rw [own] at here
  rw [above, top] at aboveKept
  exact nfsRbNext_of_left here aboveKept rightKept enough

theorem leavesTo_right {value : Ptr} {left right : BinaryTree Ptr}
    {memory after : Ptr → Option (Links Ptr)}
    (linked : Linked memory parent (.node value left right))
    (distinct : (postorder (.node value left right)).Nodup)
    (same : ∀ kept ∉ postorder left, after kept = memory kept) :
    LeavesTo turns after right (some value) := by
  intro pointer top other agree here
  rcases linked with ⟨above, leftLinked, rightLinked⟩
  rcases links_of_root rightLinked top with ⟨first, second, own⟩
  have notLeft := root_left_ne_root_right (List.Nodup.of_append_left distinct) top
  simp only [postorder, List.nodup_append, List.mem_append, List.mem_singleton] at distinct
  rcases distinct with ⟨⟨-, -, apart⟩, -, notBelow⟩
  have outside : pointer ∉ postorder left := by
    intro fromLeft
    exact apart pointer fromLeft pointer (mem_postorder_of_root top) rfl
  have aboveKept : other value = memory value := by
    rw [agree value, same value]
    · intro member
      exact notBelow value (Or.inl member) value rfl rfl
    · intro member
      exact notBelow value (Or.inr member) value rfl rfl
  rw [same pointer outside, own] at here
  rw [above] at aboveKept
  exact nfsRbNext_of_right here aboveKept notLeft

/-- The loop runs its body for the nodes of a tree in post-order and goes on behind it. -/
theorem forEachEntrySafe_tree (keeps : KeepsOthers nodes body)
    (linked : Linked (nodes s) parent tree) (distinct : (postorder tree).Nodup)
    (enough : tree.numNodes ≤ turns) (leaves : LeavesTo turns (nodes s) tree n) :
    forEachEntrySafe nodes body turns (tree.numNodes + more) ((postorder tree).head?.or n) s =
      ((postorder tree).foldlM body s).bind (forEachEntrySafe nodes body turns more n) := by
  induction tree generalizing parent s n more with
  | nil => simp [postorder]
  | node value left right ihLeft ihRight =>
      simp only [BinaryTree.numNodes] at enough
      have leftLeaves := leavesTo_left linked distinct (show right.numNodes ≤ turns by omega)
      have start : (postorder (.node value left right)).head?.or n =
          (postorder left).head?.or ((postorder right).head?.or (some value)) := by
        simp [postorder, List.head?_append]
      have count : (BinaryTree.node value left right).numNodes + more =
          left.numNodes + (right.numNodes + (more + 1)) := by
        simp only [BinaryTree.numNodes]
        omega
      have below : (postorder left ++ postorder right).Nodup := distinct.of_append_left
      have notBelow : value ∉ postorder left ++ postorder right := by
        intro member
        have apart := (List.nodup_append.mp distinct).2.2
        exact apart value member value (List.mem_singleton_self value) rfl
      rw [start, count, ihLeft linked.2.1 below.of_append_left (by omega) leftLeaves, postorder,
        List.foldlM_append, List.foldlM_append]
      cases leftDone : (postorder left).foldlM body s with
      | none => rfl
      | some inside =>
          have leftKept := keeps.foldlM leftDone
          have rightLinked : Linked (nodes inside) (some value) right := by
            apply linked_congr _ linked.2.2
            intro kept member
            apply leftKept
            intro fromLeft
            exact (List.nodup_append.mp below).2.2 kept fromLeft kept member rfl
          have rightLeaves := @leavesTo_right _ _ turns _ _ _ _ _ _ linked distinct leftKept
          simp only [Option.bind_some, Option.bind_eq_bind]
          rw [ihRight rightLinked below.of_append_right (by omega) rightLeaves]
          cases rightDone : (postorder right).foldlM body inside with
          | none => rfl
          | some last =>
              -- both subtrees may be gone; the root and what is above it are as before
              have bothDone : (postorder left ++ postorder right).foldlM body s = some last := by
                rw [List.foldlM_append, leftDone]
                exact rightDone
              have kept := keeps.foldlM bothDone
              have next : nfsRbNext (nodes last) turns (some value) = some n := by
                apply leaves value rfl
                · intro pointer outside
                  apply kept
                  intro member
                  exact outside (List.mem_append_left _ member)
                · exact kept value notBelow
              simp only [Option.bind_some, forEachEntrySafe, next, List.foldlM_cons,
                List.foldlM_nil, Option.bind_eq_bind, Option.pure_def, Option.bind_fun_some]

/-- The macro runs its body for the nodes in post-order, as a plain loop over them would. -/
theorem nfsRbtreePostorderForEachEntrySafe_eq_foldlM (keeps : KeepsOthers nodes body)
    (whole : InMemory (nodes s) tree) (enough : tree.numNodes ≤ turns) :
    nfsRbtreePostorderForEachEntrySafe nodes body turns (root tree) s =
      (postorder tree).foldlM body s := by
  have leaves : LeavesTo turns (nodes s) tree none := by
    intro pointer top other _ here
    rcases links_of_root whole.linked top with ⟨first, second, own⟩
    rw [own] at here
    exact nfsRbNext_of_no_parent here
  rcases Nat.exists_eq_add_of_le enough with ⟨more, rfl⟩
  have loop := @forEachEntrySafe_tree _ _ _ _ _ _ _ _ _ more _ keeps whole.linked whole.distinct
    enough leaves
  have finish : forEachEntrySafe nodes body (tree.numNodes + more) more none = some := by
    funext last
    rw [forEachEntrySafe]
  rw [finish, Option.bind_fun_some, Option.or_none] at loop
  rw [nfsRbtreePostorderForEachEntrySafe, nfsRbFirst, nfsRbLeftMost_root whole.linked enough]
  exact loop

end Loop

section Visits

variable {Ptr : Type u} {seen pointers : List Ptr}

/-- A loop body that only writes down what it is run for. -/
def note (seen : List Ptr) (pos : Ptr) : Option (List Ptr) :=
  some (seen ++ [pos])

theorem foldlM_note (seen pointers : List Ptr) :
    pointers.foldlM note seen = some (seen ++ pointers) := by
  induction pointers generalizing seen with
  | nil => simp
  | cons pointer pointers ih => simp [note, ih]

variable [DecidableEq Ptr] {memory : Ptr → Option (Links Ptr)} {tree : BinaryTree Ptr}
  {start pos : Option Ptr} {turns more i : ℕ} {rest : List Ptr}

theorem walk_of_none (ended : walk memory turns start i = some none) (j : ℕ) :
    walk memory turns start (i + j) = some none := by
  induction j with
  | zero => exact ended
  | succ j ih =>
      rw [← Nat.add_assoc, walk, ih]
      rfl

/-- What a loop notes is what repeated steps of the walk lead to. -/
theorem walk_of_noted {noted : List Ptr} (reached : walk memory turns start i = some pos)
    (done : forEachEntrySafe (fun _ => memory) note turns more pos seen = some noted) :
    ∃ rest, noted = seen ++ rest ∧ ∀ j, walk memory turns start (i + j) = some rest[j]? := by
  induction more generalizing i pos seen with
  | zero =>
      cases pos with
      | none =>
          simp only [forEachEntrySafe, Option.some.injEq] at done
          exact ⟨[], by simp [done], walk_of_none reached⟩
      | some pointer => simp [forEachEntrySafe] at done
  | succ more ih =>
      cases pos with
      | none =>
          simp only [forEachEntrySafe, Option.some.injEq] at done
          exact ⟨[], by simp [done], walk_of_none reached⟩
      | some pointer =>
          rcases Option.bind_eq_some_iff.mp done with ⟨n, next, later⟩
          have step : walk memory turns start (i + 1) = some n := by
            rw [walk, reached]
            exact next
          rcases ih step later with ⟨rest, whole, follows⟩
          refine ⟨pointer :: rest, by simp [whole], ?_⟩
          intro j
          cases j with
          | zero => exact reached
          | succ j =>
              rw [Nat.add_comm j 1, ← Nat.add_assoc, follows j, Nat.add_comm 1 j,
                List.getElem?_cons_succ]

theorem walk_postorder (whole : InMemory memory tree) (enough : tree.numNodes ≤ turns) (i : ℕ) :
    walk memory turns (root tree) i = some (postorder tree)[i]? := by
  have keeps : KeepsOthers (fun _ : List Ptr => memory) note := by
    intro _ _ _ _ _ _
    rfl
  have loop := @nfsRbtreePostorderForEachEntrySafe_eq_foldlM _ _ _ _ [] _ turns _ keeps whole
    enough
  rw [foldlM_note, List.nil_append] at loop
  rcases Option.bind_eq_some_iff.mp loop with ⟨pos, first, done⟩
  have reached : walk memory turns (root tree) 0 = some pos := first
  rcases walk_of_noted reached done with ⟨rest, same, follows⟩
  obtain rfl : postorder tree = rest := same
  simpa using follows i

end Visits

/-! ## Deleting -/

section Delete

variable {Ptr : Type u} {Content : Type v} {s after : Slab Ptr Content} {tree : BinaryTree Ptr}
  {turns : ℕ} {pointers : List Ptr} {release : Content → List (Release Ptr)}

/-- The entry that is given back. -/
def Release.entry? : Release Ptr → Option Ptr
  | .entry pointer => some pointer
  | _ => none

/-- The entries given back so far, in order. -/
def Slab.freed (s : Slab Ptr Content) : List Ptr :=
  s.released.filterMap Release.entry?

/-- What is released with an entry and the entry itself. -/
def Slab.releases (release : Content → List (Release Ptr)) (s : Slab Ptr Content) (pointer : Ptr) :
    List (Release Ptr) :=
  ((s.entries pointer).map fun entry => release entry.content ++ [.entry pointer]).getD []

theorem freed_releases (others : ∀ content, (release content).filterMap Release.entry? = [])
    (held : ∀ pointer ∈ pointers, s.entries pointer ≠ none) :
    (pointers.flatMap (s.releases release)).filterMap Release.entry? = pointers := by
  induction pointers with
  | nil => rfl
  | cons first pointers ih =>
      rcases Option.ne_none_iff_exists'.mp (held first List.mem_cons_self) with ⟨entry, here⟩
      have later := ih fun pointer member => held pointer (List.mem_cons_of_mem first member)
      rw [List.flatMap_cons, List.filterMap_append, later, Slab.releases, here]
      simp [others, Release.entry?]

variable [DecidableEq Ptr]

theorem keepsOthers_deleteEntry (release : Content → List (Release Ptr)) :
    KeepsOthers Slab.nodes (fun (s : Slab Ptr Content) entry => deleteEntry release s (some entry)) := by
  intro s pos after done pointer other
  rcases Option.map_eq_some_iff.mp done with ⟨entry, -, rfl⟩
  simp only [Slab.nodes, Function.update_of_ne other]

theorem foldlM_deleteEntry (distinct : pointers.Nodup)
    (held : ∀ pointer ∈ pointers, s.entries pointer ≠ none) :
    pointers.foldlM (fun s entry => deleteEntry release s (some entry)) s =
      some ⟨fun pointer => if pointer ∈ pointers then none else s.entries pointer,
        s.released ++ pointers.flatMap (s.releases release)⟩ := by
  induction pointers generalizing s with
  | nil => simp
  | cons first pointers ih =>
      rcases List.nodup_cons.mp distinct with ⟨notLater, distinct⟩
      rcases Option.ne_none_iff_exists'.mp (held first List.mem_cons_self) with ⟨entry, here⟩
      have differ : ∀ pointer ∈ pointers, pointer ≠ first := by
        rintro pointer member rfl
        exact notLater member
      rw [List.foldlM_cons, deleteEntry, here]
      simp only [Option.map_some, Option.bind_eq_bind, Option.bind_some]
      rw [ih distinct]
      · congr 2
        · funext pointer
          by_cases same : pointer = first
          · simp [same]
          · simp [same]
        · have own : s.releases release first = release entry.content ++ [.entry first] := by
            rw [Slab.releases, here]
            rfl
          have later : pointers.flatMap (Slab.releases release
              ⟨Function.update s.entries first none,
                s.released ++ release entry.content ++ [.entry first]⟩) =
              pointers.flatMap (s.releases release) := by
            apply List.flatMap_congr
            intro pointer member
            simp only [Slab.releases, Function.update_of_ne (differ pointer member)]
          rw [later, List.flatMap_cons, own]
          simp
      · intro pointer member
        have kept := Function.update_of_ne (differ pointer member) none s.entries
        exact fun absent => held pointer (List.mem_cons_of_mem first member) (kept.symm.trans absent)

/-- All entries of a tree were given back, each once, and nothing else was touched. -/
structure Cleared (tree : BinaryTree Ptr) (s after : Slab Ptr Content) : Prop where
  gone : ∀ pointer ∈ postorder tree, after.entries pointer = none
  kept : ∀ pointer ∉ postorder tree, after.entries pointer = s.entries pointer
  order : after.freed = s.freed ++ postorder tree
  once : ∀ pointer ∈ postorder tree,
    after.freed.count pointer = s.freed.count pointer + 1

theorem clearTree_cleared (others : ∀ content, (release content).filterMap Release.entry? = [])
    (whole : InMemory s.nodes tree) (enough : tree.numNodes ≤ turns) :
    ∃ after, clearTree release turns (root tree) s = some after ∧ Cleared tree s after ∧
      after.released = s.released ++ (postorder tree).flatMap (s.releases release) := by
  have held : ∀ pointer ∈ postorder tree, s.entries pointer ≠ none := by
    intro pointer member absent
    apply held_of_linked whole.linked member
    rw [Slab.nodes, absent]
    rfl
  have loop := nfsRbtreePostorderForEachEntrySafe_eq_foldlM (keepsOthers_deleteEntry release) whole
    enough
  rw [foldlM_deleteEntry whole.distinct held] at loop
  refine ⟨_, loop, ⟨?_, ?_, ?_, ?_⟩, rfl⟩
  · intro pointer member
    exact if_pos member
  · intro pointer outside
    exact if_neg outside
  · simp only [Slab.freed, List.filterMap_append, freed_releases others held]
  · intro pointer member
    simp only [Slab.freed, List.filterMap_append, freed_releases others held, List.count_append,
      List.count_eq_one_of_mem whole.distinct member]

/-- The root still leads to the entries that were deleted. -/
theorem clearTree_again (cleared : Cleared tree s after) (someEntry : tree ≠ .nil) :
    clearTree release turns (root tree) after = none := by
  cases tree with
  | nil => exact absurd rfl someEntry
  | node pointer left right =>
      have gone := cleared.gone pointer (by simp [postorder])
      have lost : leftMostLoop after.nodes turns pointer = none := by
        cases turns with
        | zero => rfl
        | succ turns => simp [leftMostLoop, Slab.nodes, gone]
      simp [clearTree, nfsRbtreePostorderForEachEntrySafe, nfsRbFirst, nfsRbLeftMost, root, lost]

/-- The walk meets the nodes of a tree in post-order and then ends, and both functions that
clear a tree give each entry back once, without a read of one that they have given back. -/
theorem walk_and_clearing (tree : BinaryTree Ptr) (turns : ℕ) (enough : tree.numNodes ≤ turns) :
    (∀ nodes : Ptr → Option (Links Ptr), InMemory nodes tree →
      ∀ i, walk nodes turns (root tree) i = some (postorder tree)[i]?) ∧
    (∀ s : Slab Ptr (CounterContent Ptr), InMemory s.nodes tree →
      ∃ after, clearIptree turns (root tree) s = some after ∧ Cleared tree s after) ∧
    (∀ s : Slab Ptr (List UInt8), InMemory s.nodes tree →
      ∃ after, clearNfsrule turns (root tree) s = some after ∧ Cleared tree s after) := by
  refine ⟨?_, ?_, ?_⟩
  · intro nodes whole i
    exact walk_postorder whole enough i
  · intro s whole
    rcases @clearTree_cleared _ _ _ _ turns counterReleases _ (fun _ => rfl) whole enough with
      ⟨after, done, cleared, -⟩
    exact ⟨after, done, cleared⟩
  · intro s whole
    rcases @clearTree_cleared _ _ _ _ turns ruleReleases _ (fun _ => rfl) whole enough with
      ⟨after, done, cleared, -⟩
    exact ⟨after, done, cleared⟩

end Delete

/-- A root with a left child that has no left child, and with a right child. -/
def fourEntries : BinaryTree ℕ :=
  .node 10 (.node 20 .nil (.node 30 .nil .nil)) (.node 40 .nil .nil)

/-- A tree of four nodes. -/
def fourLinks : ℕ → Option (Links ℕ)
  | 10 => some ⟨none, some 20, some 40⟩
  | 20 => some ⟨some 10, none, some 30⟩
  | 30 => some ⟨some 20, none, none⟩
  | 40 => some ⟨some 10, none, none⟩
  | _ => none

/-- The rules at the four nodes. -/
def fourRules : Slab ℕ (List UInt8) :=
  ⟨fun pointer => (fourLinks pointer).map fun node => ⟨node, [0x30, 0]⟩, []⟩

theorem walk_and_clearing_fourEntries :
    walk fourLinks 4 (some 10) 1 = some (some 20) ∧ walk fourLinks 4 (some 10) 4 = some none ∧
      ∃ after, clearNfsrule 4 (some 10) fourRules = some after ∧
        after.freed = [30, 20, 40, 10] := by
  have enough : fourEntries.numNodes ≤ 4 := by decide
  have whole : InMemory fourLinks fourEntries := by
    refine ⟨?_, by decide⟩
    exact ⟨rfl, ⟨rfl, trivial, rfl, trivial, trivial⟩, rfl, trivial, trivial⟩
  have same : fourRules.nodes = fourLinks := by
    funext pointer
    simp [Slab.nodes, fourRules, Function.comp_def]
  rcases walk_and_clearing fourEntries 4 enough with ⟨walks, -, clears⟩
  rcases clears fourRules (same ▸ whole) with ⟨after, done, cleared⟩
  exact ⟨walks fourLinks whole 1, walks fourLinks whole 4, after, done, cleared.order⟩

end Linguafranca.Nfstat
