import Mathlib.Data.Tree.Basic
import Mathlib.Data.List.Nodup

/-!
# Trees made of pointers

Each node of a tree in memory has pointers to its parent and to its two children. The shape of
the tree is a `BinaryTree` of the pointers of its nodes. What a memory gives for nodes outside
a tree does not matter to the tree.
-/

namespace Linguafranca.PostOrder

universe u

variable {Ptr : Type u}

/-- The pointers of a node. -/
structure Links (Ptr : Type u) where
  parent : Option Ptr
  left : Option Ptr
  right : Option Ptr

/-- The nodes, children before their parent and the left ones first. -/
def postorder : BinaryTree Ptr → List Ptr
  | .nil => []
  | .node pointer left right => postorder left ++ postorder right ++ [pointer]

/-- The pointer to the root of a tree. -/
def root : BinaryTree Ptr → Option Ptr
  | .nil => none
  | .node pointer _ _ => some pointer

/-- The pointers in memory are those of a tree below a parent. -/
def Linked (nodes : Ptr → Option (Links Ptr)) : Option Ptr → BinaryTree Ptr → Prop
  | _, .nil => True
  | parent, .node pointer left right =>
      nodes pointer = some ⟨parent, root left, root right⟩ ∧
        Linked nodes (some pointer) left ∧ Linked nodes (some pointer) right

/-- A whole tree in memory: no two of its nodes are the same. -/
structure InMemory (nodes : Ptr → Option (Links Ptr)) (tree : BinaryTree Ptr) : Prop where
  linked : Linked nodes none tree
  distinct : (postorder tree).Nodup

variable {nodes other : Ptr → Option (Links Ptr)} {parent : Option Ptr} {tree : BinaryTree Ptr}
  {pointer : Ptr}

@[simp]
theorem length_postorder (tree : BinaryTree Ptr) : (postorder tree).length = tree.numNodes := by
  induction tree with
  | nil => rfl
  | node pointer left right ihLeft ihRight =>
      simp [postorder, ihLeft, ihRight, Nat.add_assoc]

theorem nil_of_root (top : root tree = none) : tree = .nil := by
  cases tree with
  | nil => rfl
  | node pointer left right => simp [root] at top

theorem mem_postorder_of_root (top : root tree = some pointer) : pointer ∈ postorder tree := by
  cases tree with
  | nil => simp [root] at top
  | node pointer left right =>
      simp only [root, Option.some.injEq] at top
      simp [postorder, top]

theorem links_of_root (linked : Linked nodes parent tree) (top : root tree = some pointer) :
    ∃ left right, nodes pointer = some ⟨parent, left, right⟩ := by
  cases tree with
  | nil => simp [root] at top
  | node pointer left right =>
      simp only [root, Option.some.injEq] at top
      subst top
      exact ⟨root left, root right, linked.1⟩

theorem linked_congr (same : ∀ pointer ∈ postorder tree, other pointer = nodes pointer)
    (linked : Linked nodes parent tree) : Linked other parent tree := by
  induction tree generalizing parent with
  | nil => trivial
  | node pointer left right ihLeft ihRight =>
      rcases linked with ⟨here, leftLinked, rightLinked⟩
      refine ⟨?_, ?_, ?_⟩
      · rw [same pointer (by simp [postorder])]
        exact here
      · apply ihLeft _ leftLinked
        intro pointer member
        exact same pointer (by simp [postorder, member])
      · apply ihRight _ rightLinked
        intro pointer member
        exact same pointer (by simp [postorder, member])

theorem held_of_linked (linked : Linked nodes parent tree) (member : pointer ∈ postorder tree) :
    nodes pointer ≠ none := by
  induction tree generalizing parent with
  | nil => exact absurd member List.not_mem_nil
  | node value left right ihLeft ihRight =>
      rcases linked with ⟨here, leftLinked, rightLinked⟩
      simp only [postorder, List.mem_append, List.mem_singleton] at member
      rcases member with (fromLeft | fromRight) | rfl
      · exact ihLeft leftLinked fromLeft
      · exact ihRight rightLinked fromRight
      · rw [here]
        exact Option.some_ne_none _

theorem root_left_ne_root_right {left right : BinaryTree Ptr}
    (distinct : (postorder left ++ postorder right).Nodup) (top : root right = some pointer) :
    root left ≠ some pointer := by
  intro same
  have fromLeft := mem_postorder_of_root same
  have fromRight := mem_postorder_of_root top
  exact (List.nodup_append.mp distinct).2.2 pointer fromLeft pointer fromRight rfl

end Linguafranca.PostOrder
