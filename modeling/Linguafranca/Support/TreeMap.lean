import Linguafranca.Support.SearchTree

/-!
# Search trees of pointers

A tree of pointers stands for the tree of what the pointers point to. The operations of a
steered search tree commute with this reading when the pointers are steered as their
contents are; only an update in place needs that no pointer occurs twice.
-/

namespace Linguafranca.SearchTree

universe u v

variable {Node : Type u} {Image : Type v} {dir : Node → Ordering} {there : Image → Ordering}
  {read : Node → Image} {tree linked : BinaryTree Node} {node new : Node}

/-- The pointers of the tree are steered as their contents are. -/
def Steers (dir : Node → Ordering) (there : Image → Ordering) (read : Node → Image)
    (tree : BinaryTree Node) : Prop :=
  ∀ node ∈ inorder tree, there (read node) = dir node

theorem Steers.parts {value : Node} {left right : BinaryTree Node}
    (steers : Steers dir there read (.node value left right)) :
    there (read value) = dir value ∧ Steers dir there read left ∧ Steers dir there read right := by
  simp only [Steers, inorder_node, List.mem_append, List.mem_cons] at steers
  exact ⟨steers value (Or.inr (Or.inl rfl)), fun node member => steers node (Or.inl member),
    fun node member => steers node (Or.inr (Or.inr member))⟩

/-- The sequence after a new node is linked. -/
theorem perm_of_link (success : link dir new tree = some linked) :
    (inorder linked).Perm (new :: inorder tree) := by
  rcases split_of_link success with ⟨before, after, sequence, placed⟩
  rw [sequence, placed]
  exact List.perm_middle

/-- The sequence before a node is taken out. -/
theorem perm_of_find (found : find dir tree = some node) :
    (inorder tree).Perm (node :: inorder (erase dir tree)) := by
  rcases split_of_find found with ⟨before, after, sequence, erased, -⟩
  rw [sequence, erased]
  exact List.perm_middle

end Linguafranca.SearchTree
