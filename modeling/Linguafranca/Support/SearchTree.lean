import Mathlib

/-!
# Binary search trees steered by a three-way comparison

The trees are Mathlib's `BinaryTree`. A descent is steered by a function that says,
for each node it meets, whether the sought key lies before it (`lt`), after it
(`gt`) or at it (`eq`). Nothing is assumed about that function: it need not come from
an order. What a descent finds is then decided by how the steering behaves along the
in-order sequence.

`Guides` is enough to reach a node at which the steering stops; `Monotone` also places
a new node between the nodes before it and the nodes after it. When the steering
compares a key with the keys of a strictly sorted tree both hold. Balancing may change
the shape of a tree after every update in any way that keeps the sequence (`Rebalance`).
-/

namespace Linguafranca.SearchTree

universe u v

variable {Node : Type u}

/-- The in-order sequence of the nodes. -/
def inorder : BinaryTree Node → List Node
  | .nil => []
  | .node value left right => inorder left ++ value :: inorder right

/-- Follow the steering down to a node at which it stops. -/
def find (dir : Node → Ordering) : BinaryTree Node → Option Node
  | .nil => none
  | .node value left right =>
      match dir value with
      | .lt => find dir left
      | .gt => find dir right
      | .eq => some value

/-- The nodes a descent meets, from the root on. -/
def visited (dir : Node → Ordering) : BinaryTree Node → List Node
  | .nil => []
  | .node value left right =>
      match dir value with
      | .lt => value :: visited dir left
      | .gt => value :: visited dir right
      | .eq => [value]

/-- Link a new node at the empty place where the descent ends, unless it stops at a node. -/
def link (dir : Node → Ordering) (new : Node) : BinaryTree Node → Option (BinaryTree Node)
  | .nil => some (.node new .nil .nil)
  | .node value left right =>
      match dir value with
      | .lt => (link dir new left).map (fun linked => .node value linked right)
      | .gt => (link dir new right).map (fun linked => .node value left linked)
      | .eq => none

/-- Update in place the node at which the descent stops. -/
def modify (dir : Node → Ordering) (update : Node → Node) : BinaryTree Node → BinaryTree Node
  | .nil => .nil
  | .node value left right =>
      match dir value with
      | .lt => .node value (modify dir update left) right
      | .gt => .node value left (modify dir update right)
      | .eq => .node (update value) left right

/-- Hang the second tree below the last node of the first. -/
def join : BinaryTree Node → BinaryTree Node → BinaryTree Node
  | .nil, second => second
  | .node value left right, second => .node value left (join right second)

/-- Take out the node at which the descent stops. -/
def erase (dir : Node → Ordering) : BinaryTree Node → BinaryTree Node
  | .nil => .nil
  | .node value left right =>
      match dir value with
      | .lt => .node value (erase dir left) right
      | .gt => .node value left (erase dir right)
      | .eq => join left right

/-- A change of shape that keeps the in-order sequence: any sequence of rotations. -/
structure Rebalance (Node : Type u) where
  apply : BinaryTree Node → BinaryTree Node
  inorder_apply : ∀ tree, inorder (apply tree) = inorder tree

/-- The rebalancing that has nothing to do. -/
def Rebalance.none : Rebalance Node :=
  ⟨id, fun _ => rfl⟩

attribute [simp] Rebalance.inorder_apply

@[simp]
theorem inorder_nil : inorder (.nil : BinaryTree Node) = [] :=
  rfl

@[simp]
theorem inorder_node (value : Node) (left right : BinaryTree Node) :
    inorder (.node value left right) = inorder left ++ value :: inorder right :=
  rfl

/-- Bring the left child of the right child up to the root. -/
def rotateRightLeft : BinaryTree Node → BinaryTree Node
  | .node value left (.node child (.node top inner outer) right) =>
      .node top (.node value left inner) (.node child outer right)
  | tree => tree

theorem inorder_rotateRightLeft (tree : BinaryTree Node) :
    inorder (rotateRightLeft tree) = inorder tree := by
  unfold rotateRightLeft
  split
  · simp
  · rfl

/-- The double rotation of a red-black insertion at the root. -/
def Rebalance.rightLeft : Rebalance Node :=
  ⟨rotateRightLeft, inorder_rotateRightLeft⟩

@[simp]
theorem inorder_join (first second : BinaryTree Node) :
    inorder (join first second) = inorder first ++ inorder second := by
  induction first with
  | nil => rfl
  | node value left right _ ihRight => simp [join, ihRight]

section Descent

variable {dir : Node → Ordering}

theorem dir_of_find {tree : BinaryTree Node} {node : Node} (found : find dir tree = some node) :
    dir node = .eq := by
  induction tree with
  | nil => simp [find] at found
  | node value left right ihLeft ihRight =>
      rw [find] at found
      split at found
      · exact ihLeft found
      · exact ihRight found
      · next here =>
          obtain rfl := Option.some.inj found
          exact here

/-- The node a descent stops at splits the sequence; updating and taking out that node
act at the split. -/
theorem split_of_find {tree : BinaryTree Node} {node : Node}
    (found : find dir tree = some node) :
    ∃ before after, inorder tree = before ++ node :: after ∧
      inorder (erase dir tree) = before ++ after ∧
      ∀ update, inorder (modify dir update tree) = before ++ update node :: after := by
  induction tree with
  | nil => simp [find] at found
  | node value left right ihLeft ihRight =>
      rw [find] at found
      split at found
      · next here =>
          rcases ihLeft found with ⟨before, after, sequence, erased, modified⟩
          refine ⟨before, after ++ value :: inorder right, ?_, ?_, ?_⟩
          · simp [sequence]
          · simp [erase, here, erased]
          · intro update
            simp [modify, here, modified]
      · next here =>
          rcases ihRight found with ⟨before, after, sequence, erased, modified⟩
          refine ⟨inorder left ++ value :: before, after, ?_, ?_, ?_⟩
          · simp [sequence]
          · simp [erase, here, erased]
          · intro update
            simp [modify, here, modified]
      · next here =>
          obtain rfl := Option.some.inj found
          refine ⟨inorder left, inorder right, rfl, ?_, ?_⟩
          · simp [erase, here]
          · intro update
            simp [modify, here]

theorem mem_of_find {tree : BinaryTree Node} {node : Node} (found : find dir tree = some node) :
    node ∈ inorder tree := by
  rcases split_of_find found with ⟨before, after, sequence, -, -⟩
  simp [sequence]

theorem mem_of_mem_visited {tree : BinaryTree Node} {node : Node}
    (member : node ∈ visited dir tree) : node ∈ inorder tree := by
  induction tree with
  | nil => simp [visited] at member
  | node value left right ihLeft ihRight =>
      rw [visited] at member
      rw [inorder_node, List.mem_append, List.mem_cons]
      split at member
      · rcases List.mem_cons.mp member with here | below
        · exact Or.inr (Or.inl here)
        · exact Or.inl (ihLeft below)
      · rcases List.mem_cons.mp member with here | below
        · exact Or.inr (Or.inl here)
        · exact Or.inr (Or.inr (ihRight below))
      · exact Or.inr (Or.inl (List.mem_singleton.mp member))

/-- A descent finds the node at which it stops. -/
theorem find_eq_some_iff_visited {tree : BinaryTree Node} {node : Node} :
    find dir tree = some node ↔ node ∈ visited dir tree ∧ dir node = .eq := by
  induction tree with
  | nil => simp [find, visited]
  | node value left right ihLeft ihRight =>
      rw [find, visited]
      split
      · next here =>
          rw [ihLeft, List.mem_cons]
          constructor
          · exact fun met => ⟨Or.inr met.1, met.2⟩
          · rintro ⟨rfl | below, stops⟩
            · simp [here] at stops
            · exact ⟨below, stops⟩
      · next here =>
          rw [ihRight, List.mem_cons]
          constructor
          · exact fun met => ⟨Or.inr met.1, met.2⟩
          · rintro ⟨rfl | below, stops⟩
            · simp [here] at stops
            · exact ⟨below, stops⟩
      · next here =>
          rw [Option.some.injEq, List.mem_singleton]
          constructor
          · rintro rfl
            exact ⟨rfl, here⟩
          · exact fun met => met.1.symm

/-- Only the way taken at the nodes of the tree matters. -/
theorem find_congr {other : Node → Ordering} {tree : BinaryTree Node}
    (same : ∀ node ∈ inorder tree, dir node = other node) : find dir tree = find other tree := by
  induction tree with
  | nil => rfl
  | node value left right ihLeft ihRight =>
      simp only [inorder_node, List.mem_append, List.mem_cons] at same
      have here : dir value = other value := same value (Or.inr (Or.inl rfl))
      have inLeft := ihLeft fun node member => same node (Or.inl member)
      have inRight := ihRight fun node member => same node (Or.inr (Or.inr member))
      simp only [find, here, inLeft, inRight]

theorem modify_of_find_none {tree : BinaryTree Node} (update : Node → Node)
    (missing : find dir tree = none) : modify dir update tree = tree := by
  induction tree with
  | nil => rfl
  | node value left right ihLeft ihRight =>
      rw [find] at missing
      split at missing
      · next here => simp [modify, here, ihLeft missing]
      · next here => simp [modify, here, ihRight missing]
      · simp at missing

theorem erase_of_find_none {tree : BinaryTree Node} (missing : find dir tree = none) :
    erase dir tree = tree := by
  induction tree with
  | nil => rfl
  | node value left right ihLeft ihRight =>
      rw [find] at missing
      split at missing
      · next here => simp [erase, here, ihLeft missing]
      · next here => simp [erase, here, ihRight missing]
      · simp at missing

theorem link_eq_none_iff {tree : BinaryTree Node} {new : Node} :
    link dir new tree = none ↔ (find dir tree).isSome := by
  induction tree with
  | nil => simp [link, find]
  | node value left right ihLeft ihRight =>
      rw [link, find]
      split <;> simp [ihLeft, ihRight]

theorem split_of_link {tree linked : BinaryTree Node} {new : Node}
    (success : link dir new tree = some linked) :
    ∃ before after, inorder tree = before ++ after ∧ inorder linked = before ++ new :: after := by
  induction tree generalizing linked with
  | nil =>
      simp only [link, Option.some.injEq] at success
      subst linked
      exact ⟨[], [], rfl, rfl⟩
  | node value left right ihLeft ihRight =>
      rw [link] at success
      split at success
      · rcases Option.map_eq_some_iff.mp success with ⟨inner, innerLinked, rfl⟩
        rcases ihLeft innerLinked with ⟨before, after, sequence, placed⟩
        exact ⟨before, after ++ value :: inorder right, by simp [sequence], by simp [placed]⟩
      · rcases Option.map_eq_some_iff.mp success with ⟨inner, innerLinked, rfl⟩
        rcases ihRight innerLinked with ⟨before, after, sequence, placed⟩
        exact ⟨inorder left ++ value :: before, after, by simp [sequence], by simp [placed]⟩
      · simp at success

theorem mem_inorder_link {tree linked : BinaryTree Node} {new node : Node}
    (success : link dir new tree = some linked) :
    node ∈ inorder linked ↔ node = new ∨ node ∈ inorder tree := by
  rcases split_of_link success with ⟨before, after, sequence, placed⟩
  simp only [sequence, placed, List.mem_append, List.mem_cons]
  exact or_left_comm

theorem mem_of_mem_modify {tree : BinaryTree Node} {update : Node → Node} {node : Node}
    (member : node ∈ inorder (modify dir update tree)) :
    node ∈ inorder tree ∨ ∃ old ∈ inorder tree, dir old = .eq ∧ node = update old := by
  cases found : find dir tree with
  | none =>
      rw [modify_of_find_none update found] at member
      exact Or.inl member
  | some old =>
      rcases split_of_find found with ⟨before, after, sequence, -, modified⟩
      simp only [modified, List.mem_append, List.mem_cons] at member
      rcases member with inBefore | updated | inAfter
      · left
        simp [sequence, inBefore]
      · right
        exact ⟨old, mem_of_find found, dir_of_find found, updated⟩
      · left
        simp [sequence, inAfter]

/-- No node is steered away from a node at which the descent would stop. -/
def Guides (dir : Node → Ordering) (nodes : List Node) : Prop :=
  nodes.Pairwise (fun first second =>
    (dir first = .eq → dir second ≠ .gt) ∧ (dir second = .eq → dir first ≠ .lt))

/-- Along the sequence the steering says `gt`, then `eq`, then `lt`. -/
def Monotone (dir : Node → Ordering) (nodes : List Node) : Prop :=
  nodes.Pairwise (fun first second =>
    (dir second = .gt → dir first = .gt) ∧ (dir first = .lt → dir second = .lt))

theorem Monotone.guides {nodes : List Node} (monotone : Monotone dir nodes) :
    Guides dir nodes := by
  refine List.Pairwise.imp ?_ monotone
  rintro first second ⟨before, after⟩
  constructor
  · intro stops beyond
    simp [before beyond] at stops
  · intro stops beyond
    simp [after beyond] at stops

/-- Under guiding steering a descent stops whenever it can. -/
theorem find_isSome_of_guides {tree : BinaryTree Node} (guides : Guides dir (inorder tree))
    {target : Node} (member : target ∈ inorder tree) (stops : dir target = .eq) :
    (find dir tree).isSome := by
  induction tree with
  | nil => simp at member
  | node value left right ihLeft ihRight =>
      simp only [Guides, inorder_node, List.pairwise_append, List.pairwise_cons,
        List.mem_cons] at guides
      rcases guides with ⟨guidesLeft, ⟨fromValue, guidesRight⟩, across⟩
      simp only [inorder_node, List.mem_append, List.mem_cons] at member
      rw [find]
      split
      · next here =>
          rcases member with inLeft | rfl | inRight
          · exact ihLeft guidesLeft inLeft
          · simp [stops] at here
          · exact absurd here ((fromValue target inRight).2 stops)
      · next here =>
          rcases member with inLeft | rfl | inRight
          · exact absurd here ((across target inLeft value (Or.inl rfl)).1 stops)
          · simp [stops] at here
          · exact ihRight guidesRight inRight
      · rfl

/-- Under monotone steering a new node is linked after the nodes it is steered past and
before all the others. -/
theorem split_of_link_of_monotone {tree linked : BinaryTree Node} {new : Node}
    (monotone : Monotone dir (inorder tree)) (success : link dir new tree = some linked) :
    ∃ before after, inorder tree = before ++ after ∧ inorder linked = before ++ new :: after ∧
      (∀ node ∈ before, dir node = .gt) ∧ ∀ node ∈ after, dir node = .lt := by
  induction tree generalizing linked with
  | nil =>
      simp only [link, Option.some.injEq] at success
      subst linked
      exact ⟨[], [], rfl, rfl, by simp, by simp⟩
  | node value left right ihLeft ihRight =>
      simp only [Monotone, inorder_node, List.pairwise_append, List.pairwise_cons,
        List.mem_cons] at monotone
      rcases monotone with ⟨monotoneLeft, ⟨fromValue, monotoneRight⟩, across⟩
      rw [link] at success
      split at success
      · next here =>
          rcases Option.map_eq_some_iff.mp success with ⟨inner, innerLinked, rfl⟩
          rcases ihLeft monotoneLeft innerLinked with
            ⟨before, after, sequence, placed, beforeDir, afterDir⟩
          refine ⟨before, after ++ value :: inorder right, by simp [sequence], by simp [placed],
            beforeDir, ?_⟩
          intro node member
          simp only [List.mem_append, List.mem_cons] at member
          rcases member with inAfter | rfl | inRight
          · exact afterDir node inAfter
          · exact here
          · exact (fromValue node inRight).2 here
      · next here =>
          rcases Option.map_eq_some_iff.mp success with ⟨inner, innerLinked, rfl⟩
          rcases ihRight monotoneRight innerLinked with
            ⟨before, after, sequence, placed, beforeDir, afterDir⟩
          refine ⟨inorder left ++ value :: before, after, by simp [sequence], by simp [placed],
            ?_, afterDir⟩
          intro node member
          simp only [List.mem_append, List.mem_cons] at member
          rcases member with inLeft | rfl | inBefore
          · exact (across node inLeft value (Or.inl rfl)).1 here
          · exact here
          · exact beforeDir node inBefore
      · simp at success

end Descent

section Sorted

variable {Key : Type v} [LinearOrder Key] {key : Node → Key} {sought : Key}

/-- The keys of the sequence strictly increase. -/
def Sorted (key : Node → Key) (nodes : List Node) : Prop :=
  nodes.Pairwise (fun first second => key first < key second)

theorem Sorted.monotone {nodes : List Node} (sorted : Sorted key nodes) (sought : Key) :
    Monotone (fun node => cmp sought (key node)) nodes := by
  refine List.Pairwise.imp ?_ sorted
  intro first second lower
  simp only [cmp_eq_gt_iff, cmp_eq_lt_iff]
  exact ⟨fun above => lower.trans above, fun below => below.trans lower⟩

theorem Sorted.eq_of_key_eq {nodes : List Node} (sorted : Sorted key nodes) {first second : Node}
    (firstMem : first ∈ nodes) (secondMem : second ∈ nodes) (same : key first = key second) :
    first = second := by
  have ordered : (nodes.map key).Pairwise (· < ·) := List.pairwise_map.mpr sorted
  exact List.inj_on_of_nodup_map (ordered.imp fun lower => ne_of_lt lower) firstMem secondMem same

theorem key_of_find {tree : BinaryTree Node} {node : Node}
    (found : find (fun node => cmp sought (key node)) tree = some node) : key node = sought := by
  have stops := @dir_of_find Node (fun node => cmp sought (key node)) tree node found
  exact ((cmp_eq_eq_iff _ _).mp stops).symm

/-- In a sorted tree a key is found exactly where it is stored. -/
theorem find_eq_some_iff {tree : BinaryTree Node} {node : Node}
    (sorted : Sorted key (inorder tree)) :
    find (fun node => cmp sought (key node)) tree = some node ↔
      node ∈ inorder tree ∧ key node = sought := by
  constructor
  · intro found
    exact ⟨mem_of_find found, key_of_find found⟩
  · rintro ⟨member, rfl⟩
    have stops : cmp (key node) (key node) = .eq := (cmp_eq_eq_iff _ _).mpr rfl
    have some := find_isSome_of_guides (sorted.monotone (key node)).guides member stops
    rcases Option.isSome_iff_exists.mp some with ⟨other, found⟩
    rw [found, sorted.eq_of_key_eq (mem_of_find found) member (key_of_find found)]

theorem find_eq_none_iff {tree : BinaryTree Node} (sorted : Sorted key (inorder tree)) :
    find (fun node => cmp sought (key node)) tree = none ↔
      ∀ node ∈ inorder tree, key node ≠ sought := by
  constructor
  · intro missing node member same
    simp [(find_eq_some_iff sorted).mpr ⟨member, same⟩] at missing
  · intro absent
    rcases result : find (fun node => cmp sought (key node)) tree with _ | node
    · rfl
    · exact absurd (key_of_find result) (absent node (mem_of_find result))

/-- Link a node under a key at or above its own: the sequence stays sorted exactly when no
stored key lies between the two. -/
theorem sorted_link_iff {tree linked : BinaryTree Node} {new : Node}
    (sorted : Sorted key (inorder tree)) (below : key new ≤ sought)
    (success : link (fun node => cmp sought (key node)) new tree = some linked) :
    Sorted key (inorder linked) ↔
      ∀ node ∈ inorder tree, key node < sought → key node < key new := by
  rcases split_of_link_of_monotone (sorted.monotone sought) success with
    ⟨before, after, sequence, placed, beforeDir, afterDir⟩
  simp only [cmp_eq_gt_iff, cmp_eq_lt_iff] at beforeDir afterDir
  have parts := sorted
  simp only [Sorted, sequence, List.pairwise_append] at parts
  rcases parts with ⟨sortedBefore, sortedAfter, across⟩
  simp only [Sorted, sequence, placed, List.pairwise_append, List.pairwise_cons, List.mem_cons,
    List.mem_append]
  constructor
  · rintro ⟨-, -, intoRest⟩ node (inBefore | inAfter) lower
    · exact intoRest node inBefore new (Or.inl rfl)
    · exact absurd (afterDir node inAfter) lower.not_gt
  · intro clear
    refine ⟨sortedBefore, ⟨?_, sortedAfter⟩, ?_⟩
    · intro node inAfter
      exact below.trans_lt (afterDir node inAfter)
    · rintro node inBefore other (rfl | inAfter)
      · exact clear node (Or.inl inBefore) (beforeDir node inBefore)
      · exact across node inBefore other inAfter

/-- In a sorted tree the update reaches exactly the node with the sought key. -/
theorem inorder_modify_of_sorted {tree : BinaryTree Node} (sorted : Sorted key (inorder tree))
    (update : Node → Node) :
    inorder (modify (fun node => cmp sought (key node)) update tree) =
      (inorder tree).map (fun node => if key node = sought then update node else node) := by
  have others : ∀ nodes : List Node, (∀ node ∈ nodes, key node ≠ sought) →
      nodes.map (fun node => if key node = sought then update node else node) = nodes := by
    intro nodes absent
    refine (List.map_congr_left ?_).trans (List.map_id nodes)
    intro node member
    simp [absent node member]
  cases found : find (fun node => cmp sought (key node)) tree with
  | none =>
      rw [modify_of_find_none update found, others]
      exact (find_eq_none_iff sorted).mp found
  | some node =>
      rcases split_of_find found with ⟨before, after, sequence, -, modified⟩
      have here := key_of_find found
      rw [sequence] at sorted ⊢
      simp only [Sorted, List.pairwise_append, List.pairwise_cons, List.mem_cons] at sorted
      rw [modified, List.map_append, List.map_cons, if_pos here, others before, others after]
      · intro other member
        rw [← here]
        exact (sorted.2.1.1 other member).ne'
      · intro other member
        rw [← here]
        exact (sorted.2.2 other member node (Or.inl rfl)).ne

/-- In a sorted tree taking out a key takes out exactly the node that has it. -/
theorem inorder_erase_of_sorted {tree : BinaryTree Node} (sorted : Sorted key (inorder tree)) :
    inorder (erase (fun node => cmp sought (key node)) tree) =
      (inorder tree).filter (fun node => key node ≠ sought) := by
  have others : ∀ nodes : List Node, (∀ node ∈ nodes, key node ≠ sought) →
      nodes.filter (fun node => key node ≠ sought) = nodes := by
    intro nodes absent
    rw [List.filter_eq_self]
    intro node member
    exact decide_eq_true (absent node member)
  cases found : find (fun node => cmp sought (key node)) tree with
  | none =>
      rw [erase_of_find_none found, others]
      exact (find_eq_none_iff sorted).mp found
  | some node =>
      rcases split_of_find found with ⟨before, after, sequence, erased, -⟩
      have here := key_of_find found
      rw [sequence] at sorted ⊢
      simp only [Sorted, List.pairwise_append, List.pairwise_cons, List.mem_cons] at sorted
      rw [erased, List.filter_append, List.filter_cons_of_neg (by simp [here]), others before,
        others after]
      · intro other member
        rw [← here]
        exact (sorted.2.1.1 other member).ne'
      · intro other member
        rw [← here]
        exact (sorted.2.2 other member node (Or.inl rfl)).ne

/-- Sorted trees with the same nodes under a key find the same node. -/
theorem find_congr_of_sorted {first second : BinaryTree Node}
    (sortedFirst : Sorted key (inorder first))
    (sortedSecond : Sorted key (inorder second))
    (same : ∀ node, key node = sought → (node ∈ inorder first ↔ node ∈ inorder second)) :
    find (fun node => cmp sought (key node)) first =
      find (fun node => cmp sought (key node)) second := by
  apply Option.ext
  intro node
  rw [find_eq_some_iff sortedFirst, find_eq_some_iff sortedSecond]
  constructor
  · rintro ⟨member, here⟩
    exact ⟨(same node here).mp member, here⟩
  · rintro ⟨member, here⟩
    exact ⟨(same node here).mpr member, here⟩

theorem find_rebalance {tree : BinaryTree Node} (sorted : Sorted key (inorder tree))
    (rebalance : Rebalance Node) :
    find (fun node => cmp sought (key node)) (rebalance.apply tree) =
      find (fun node => cmp sought (key node)) tree := by
  apply find_congr_of_sorted
  · rwa [rebalance.inorder_apply]
  · exact sorted
  · intro node _
    rw [rebalance.inorder_apply]

theorem find_link {tree linked : BinaryTree Node} {dir : Node → Ordering} {new : Node}
    (sorted : Sorted key (inorder tree)) (sortedLinked : Sorted key (inorder linked))
    (success : link dir new tree = some linked) :
    find (fun node => cmp sought (key node)) linked =
      if sought = key new then some new
      else find (fun node => cmp sought (key node)) tree := by
  split
  · next here =>
      apply (find_eq_some_iff sortedLinked).mpr
      exact ⟨(mem_inorder_link success).mpr (Or.inl rfl), here.symm⟩
  · next elsewhere =>
      apply find_congr_of_sorted sortedLinked sorted
      rintro node rfl
      rw [mem_inorder_link success]
      apply or_iff_right
      rintro rfl
      exact elsewhere rfl

theorem find_erase {tree : BinaryTree Node} {removed : Key} (sorted : Sorted key (inorder tree)) :
    find (fun node => cmp sought (key node)) (erase (fun node => cmp removed (key node)) tree) =
      if sought = removed then none else find (fun node => cmp sought (key node)) tree := by
  have smaller := @inorder_erase_of_sorted Node Key _ key removed tree sorted
  have sortedSmaller : Sorted key (inorder (erase (fun node => cmp removed (key node)) tree)) := by
    rw [smaller]
    exact List.Pairwise.filter _ sorted
  split
  · next here =>
      apply (find_eq_none_iff sortedSmaller).mpr
      intro node member
      rw [smaller, List.mem_filter, decide_eq_true_iff] at member
      rw [here]
      exact member.2
  · next elsewhere =>
      apply find_congr_of_sorted sortedSmaller sorted
      rintro node rfl
      rw [smaller, List.mem_filter, decide_eq_true_iff]
      exact and_iff_left elsewhere

theorem find_modify {tree : BinaryTree Node} {updated : Key} {update : Node → Node}
    (sorted : Sorted key (inorder tree)) (kept : ∀ node, key (update node) = key node) :
    find (fun node => cmp sought (key node))
        (modify (fun node => cmp updated (key node)) update tree) =
      if sought = updated then (find (fun node => cmp sought (key node)) tree).map update
      else find (fun node => cmp sought (key node)) tree := by
  have nodes := @inorder_modify_of_sorted Node Key _ key updated tree sorted update
  have sortedNodes :
      Sorted key (inorder (modify (fun node => cmp updated (key node)) update tree)) := by
    rw [nodes]
    refine List.pairwise_map.mpr (sorted.imp ?_)
    intro first second lower
    split <;> split <;> simpa [kept] using lower
  split
  · next here =>
      subst here
      apply Option.ext
      intro node
      rw [find_eq_some_iff sortedNodes, Option.map_eq_some_iff, nodes, List.mem_map]
      constructor
      · rintro ⟨⟨old, member, rfl⟩, same⟩
        by_cases reached : key old = sought
        · rw [if_pos reached]
          exact ⟨old, (find_eq_some_iff sorted).mpr ⟨member, reached⟩, rfl⟩
        · rw [if_neg reached] at same
          exact absurd same reached
      · rintro ⟨old, found, rfl⟩
        rcases (find_eq_some_iff sorted).mp found with ⟨member, reached⟩
        exact ⟨⟨old, member, if_pos reached⟩, (kept old).trans reached⟩
  · next elsewhere =>
      apply find_congr_of_sorted sortedNodes sorted
      rintro node rfl
      rw [nodes, List.mem_map]
      constructor
      · rintro ⟨old, member, reached⟩
        by_cases touched : key old = updated
        · rw [if_pos touched] at reached
          subst reached
          exact absurd ((kept old).trans touched) elsewhere
        · rw [if_neg touched] at reached
          exact reached ▸ member
      · intro member
        exact ⟨node, member, if_neg elsewhere⟩

theorem sorted_of_inorder_sublist {tree smaller : BinaryTree Node}
    (sorted : Sorted key (inorder tree)) (sublist : (inorder smaller).Sublist (inorder tree)) :
    Sorted key (inorder smaller) :=
  List.Pairwise.sublist sublist sorted

end Sorted

section Update

variable {dir : Node → Ordering}

theorem inorder_erase_sublist (tree : BinaryTree Node) :
    (inorder (erase dir tree)).Sublist (inorder tree) := by
  induction tree with
  | nil => exact List.Sublist.refl _
  | node value left right ihLeft ihRight =>
      rw [erase]
      split
      · exact ihLeft.append (List.Sublist.refl _)
      · exact (List.Sublist.refl _).append (ihRight.cons_cons value)
      · simp

/-- An update that keeps a node's label keeps the sequence of labels. -/
theorem map_inorder_modify {Label : Type v} {label : Node → Label} {update : Node → Node}
    (kept : ∀ node, label (update node) = label node) (tree : BinaryTree Node) :
    (inorder (modify dir update tree)).map label = (inorder tree).map label := by
  induction tree with
  | nil => rfl
  | node value left right ihLeft ihRight =>
      rw [modify]
      split <;> simp [ihLeft, ihRight, kept]

end Update

end Linguafranca.SearchTree
