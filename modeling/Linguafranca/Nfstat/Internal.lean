import Linguafranca.Support.PostOrder
import Mathlib.Logic.Function.Basic

/-!
# The walk through a tree of nfstat

`internal.h` walks through a red-black tree by its pointers when the kernel has no macro for
that, and `clear_iptree` and `clear_nfsrule` delete the entries on the way. An entry and the
node in it have one pointer. Memory is what is allocated: a read or a `kfree` of an entry that is
not has no result. The loops stop after a number of turns, without a result when they have not
come to an end.
-/

namespace Linguafranca.Nfstat

open PostOrder

universe u v

section Walk

variable {Ptr : Type u} [DecidableEq Ptr] (nodes : Ptr → Option (Links Ptr)) (turns : ℕ)

/-- The loop of `nfs_rb_left_most`. -/
def leftMostLoop : ℕ → Ptr → Option Ptr
  | 0, _ => none
  | turns + 1, node =>
      (nodes node).bind fun rb =>
        match rb.left, rb.right with
        | some left, _ => leftMostLoop turns left
        | none, some right => leftMostLoop turns right
        | none, none => some node

/-- `nfs_rb_left_most`: the leaf that a descent reaches which prefers the left. -/
def nfsRbLeftMost : Option Ptr → Option (Option Ptr)
  | none => some none
  | some node => (leftMostLoop nodes turns node).map some

/-- The argument is `root->rb_node`. -/
def nfsRbFirst (root : Option Ptr) : Option (Option Ptr) :=
  nfsRbLeftMost nodes turns root

/-- `nfs_rb_next`: the node behind one in postorder. -/
def nfsRbNext : Option Ptr → Option (Option Ptr)
  | none => some none
  | some node =>
      (nodes node).bind fun rb =>
        match rb.parent with
        | none => some none
        | some parent =>
            (nodes parent).bind fun above =>
              if some node ≠ above.left then some (some parent)
              else if above.right = none then some (some parent)
              else nfsRbLeftMost nodes turns above.right

/-- The pointer after `i` times `nfs_rb_next`. -/
def walk (root : Option Ptr) : ℕ → Option (Option Ptr)
  | 0 => nfsRbFirst nodes turns root
  | i + 1 => (walk root i).bind (nfsRbNext nodes turns)

end Walk

section Loop

variable {Ptr : Type u} [DecidableEq Ptr] {State : Type v}
  (nodes : State → Ptr → Option (Links Ptr)) (body : State → Ptr → Option State) (turns : ℕ)

/-- The loop of the macro: the next entry is found before the body runs. -/
def forEachEntrySafe : ℕ → Option Ptr → State → Option State
  | _, none, s => some s
  | 0, some _, _ => none
  | more + 1, some pos, s =>
      (nfsRbNext (nodes s) turns (some pos)).bind fun n =>
        (body s pos).bind (forEachEntrySafe more n)

/-- `nfs_rbtree_postorder_for_each_entry_safe`: the body runs at the nodes in postorder, and the
next node is fetched before it does. -/
def nfsRbtreePostorderForEachEntrySafe (root : Option Ptr) (s : State) : Option State :=
  (nfsRbFirst (nodes s) turns root).bind fun pos => forEachEntrySafe nodes body turns turns pos s

end Loop

/-! ## Deleting the entries -/

/-- An entry: its node in the tree and what it holds. -/
structure Entry (Ptr : Type u) (Content : Type v) where
  node : Links Ptr
  content : Content

/-- What `delete` gives back to the kernel. -/
inductive Release (Ptr : Type u) where
  | procEntry (name : List UInt8)
  | percpu (counter : Ptr)
  | entry (entry : Ptr)
deriving DecidableEq

/-- The allocated entries, and what was given back so far. -/
structure Slab (Ptr : Type u) (Content : Type v) where
  entries : Ptr → Option (Entry Ptr Content)
  released : List (Release Ptr)

/-- The fields of `struct ip_counter_entry` that are released with it. -/
structure CounterContent (Ptr : Type u) where
  counter : Ptr
  name : List UInt8

section Delete

variable {Ptr : Type u} [DecidableEq Ptr] {Content : Type v}

/-- The node of an allocated entry. -/
def Slab.nodes (s : Slab Ptr Content) (pointer : Ptr) : Option (Links Ptr) :=
  (s.entries pointer).map Entry.node

/-- `delete` with what is released before the entry. -/
def deleteEntry (release : Content → List (Release Ptr)) (s : Slab Ptr Content) :
    Option Ptr → Option (Slab Ptr Content)
  | none => some s
  | some pointer =>
      (s.entries pointer).map fun entry =>
        ⟨Function.update s.entries pointer none,
          s.released ++ release entry.content ++ [.entry pointer]⟩

/-- What else is given back with a counter entry. -/
def counterReleases (content : CounterContent Ptr) : List (Release Ptr) :=
  [.procEntry content.name, .percpu content.counter]

/-- The content of a rule is its name. -/
def ruleReleases (name : List UInt8) : List (Release Ptr) :=
  [.procEntry name]

/-- The loop of `clear_iptree` and `clear_nfsrule`. -/
def clearTree (release : Content → List (Release Ptr)) (turns : ℕ) (root : Option Ptr)
    (s : Slab Ptr Content) : Option (Slab Ptr Content) :=
  nfsRbtreePostorderForEachEntrySafe Slab.nodes
    (fun s entry => deleteEntry release s (some entry)) turns root s

/-- `clear_iptree`: the counter entries are given back in postorder. -/
def clearIptree : ℕ → Option Ptr → Slab Ptr (CounterContent Ptr) →
    Option (Slab Ptr (CounterContent Ptr)) :=
  clearTree counterReleases

/-- `clear_nfsrule`: the rules are given back in postorder. -/
def clearNfsrule : ℕ → Option Ptr → Slab Ptr (List UInt8) → Option (Slab Ptr (List UInt8)) :=
  clearTree ruleReleases

end Delete

end Linguafranca.Nfstat
