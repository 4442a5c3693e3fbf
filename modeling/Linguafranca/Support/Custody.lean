import Linguafranca.Support.Interleaving
import Mathlib.Data.List.Perm.Basic
import Mathlib.Data.List.Nodup

/-!
# Who may free an object

What only one thread has at a time is flagged (`Claims`), such as a CPU. Threads allocate
objects, put them on a shelf that all of them read, take them off again and free them. At any
time an object that is allocated stands on the shelf or belongs to one thread, never both
(`Custody`). A thread that only uses an object borrows it from the shelf. Each rule is one
thing a thread does; nobody frees what another thread still uses, because an object is freed
by its owner and borrowed objects have none.
-/

namespace Linguafranca

/-! ## Partial functions with one place changed -/

section Update

variable {Key Item : Type*} [DecidableEq Key] {f : Key → Option Item} {k other : Key}
  {item item' : Item}

theorem update_none_eq_some (here : Function.update f k none other = some item) :
    other ≠ k ∧ f other = some item := by
  by_cases same : other = k
  · rw [same, Function.update_self] at here
    exact absurd here (by simp)
  · exact ⟨same, by rwa [Function.update_of_ne same] at here⟩

theorem update_some_eq_some (here : Function.update f k (some item') other = some item) :
    other = k ∧ item = item' ∨ other ≠ k ∧ f other = some item := by
  by_cases same : other = k
  · rw [same, Function.update_self, Option.some.injEq] at here
    exact Or.inl ⟨same, here.symm⟩
  · exact Or.inr ⟨same, by rwa [Function.update_of_ne same] at here⟩

/-- What stood elsewhere stays when a place that was empty changes. -/
theorem update_eq_some_of_none {got : Option Item} (none : f k = none)
    (here : f other = some item) : Function.update f k got other = some item := by
  rw [Function.update_of_ne, here]
  intro same
  rw [same, none] at here
  exact absurd here (by simp)

end Update

/-! ## Things that one thread has for itself -/

/-- A thing is flagged while a thread has it, and no two threads have the same. -/
structure Claims (flag : ℕ → Bool) (holds : ℕ → Option ℕ) : Prop where
  flagged : ∀ t k, holds t = some k → flag k = true
  once : ∀ t t' k, holds t = some k → holds t' = some k → t = t'

/-- An object nobody had gets one owner. -/
theorem once_update_some {holds : ℕ → Option ℕ} {t k : ℕ}
    (once : ∀ t t' k, holds t = some k → holds t' = some k → t = t')
    (unowned : ∀ u, holds u ≠ some k) (u u' q : ℕ)
    (owned : Function.update holds t (some k) u = some q)
    (owned' : Function.update holds t (some k) u' = some q) : u = u' := by
  rcases update_some_eq_some owned with ⟨same, ours⟩ | ⟨_, before⟩ <;>
    rcases update_some_eq_some owned' with ⟨same', ours'⟩ | ⟨_, before'⟩
  · rw [same, same']
  · rw [ours] at before'
    exact absurd before' (unowned u')
  · rw [ours'] at before
    exact absurd before (unowned u)
  · exact once u u' q before before'

namespace Claims

variable {flag : ℕ → Bool} {holds : ℕ → Option ℕ} {t k : ℕ}

theorem claim (claims : Claims flag holds) (free : flag k = false) :
    Claims (Function.update flag k true) (Function.update holds t (some k)) := by
  constructor
  · intro u other here
    by_cases same : other = k
    · rw [same, Function.update_self]
    · rw [Function.update_of_ne same]
      rcases update_some_eq_some here with ⟨_, ours⟩ | ⟨_, before⟩
      · exact absurd ours same
      · exact claims.flagged u other before
  · apply once_update_some claims.once
    intro u here
    rw [claims.flagged u k here] at free
    exact absurd free (by simp)

theorem release (claims : Claims flag holds) (mine : holds t = some k) :
    Claims (Function.update flag k false) (Function.update holds t none) := by
  constructor
  · intro u other here
    rcases update_none_eq_some here with ⟨ne, before⟩
    rw [Function.update_of_ne, claims.flagged u other before]
    intro same
    rw [same] at before
    exact ne (claims.once u t k before mine)
  · intro u u' other here here'
    exact claims.once u u' other (update_none_eq_some here).2 (update_none_eq_some here').2

end Claims

/-! ## Custody -/

/-- The objects that are allocated, those on the shelf, and what each thread owns and
borrows. -/
structure Custody (live : Set ℕ) (shelf : List ℕ) (owns borrows : ℕ → Option ℕ) : Prop where
  nodup : shelf.Nodup
  kept : ∀ p ∈ shelf, p ∈ live
  owned : ∀ t p, owns t = some p → p ∈ live
  apart : ∀ t p, owns t = some p → p ∉ shelf
  once : ∀ t t' p, owns t = some p → owns t' = some p → t = t'
  noLeak : ∀ p ∈ live, p ∈ shelf ∨ ∃ t, owns t = some p
  borrowed : ∀ t p, borrows t = some p → p ∈ shelf

namespace Custody

variable {live : Set ℕ} {shelf shelf' : List ℕ} {owns borrows : ℕ → Option ℕ} {t p : ℕ}

theorem empty : Custody ∅ [] (fun _ => none) (fun _ => none) := by
  constructor <;> simp

/-- A thread allocates an object for itself. -/
theorem alloc (custody : Custody live shelf owns borrows) (dead : p ∉ live)
    (none : owns t = none) :
    Custody (insert p live) shelf (Function.update owns t (some p)) borrows := by
  have unowned : ∀ u, owns u ≠ some p := fun u owned => dead (custody.owned u p owned)
  refine ⟨custody.nodup, fun q member => Or.inr (custody.kept q member), ?_, ?_,
    once_update_some custody.once unowned, ?_, custody.borrowed⟩
  · intro u q owned
    rcases update_some_eq_some owned with ⟨_, same⟩ | ⟨_, before⟩
    · exact Or.inl same
    · exact Or.inr (custody.owned u q before)
  · intro u q owned
    rcases update_some_eq_some owned with ⟨_, same⟩ | ⟨_, before⟩
    · rw [same]
      exact fun member => dead (custody.kept p member)
    · exact custody.apart u q before
  · intro q member
    rcases member with new | old
    · exact Or.inr ⟨t, by rw [new, Function.update_self]⟩
    · rcases custody.noLeak q old with onShelf | ⟨u, owned⟩
      · exact Or.inl onShelf
      · exact Or.inr ⟨u, update_eq_some_of_none none owned⟩

theorem others_of_owned (custody : Custody live shelf owns borrows) (owned : owns t = some p)
    {u q : ℕ} (other : u ≠ t) (theirs : owns u = some q) : q ≠ p := by
  intro same
  rw [same] at theirs
  exact other (custody.once u t p theirs owned)

/-- A thread puts its object on the shelf. -/
theorem publish (custody : Custody live shelf owns borrows) (owned : owns t = some p)
    (placed : shelf'.Perm (p :: shelf)) :
    Custody live shelf' (Function.update owns t none) borrows := by
  refine ⟨?_, ?_, ?_, ?_, ?_, ?_, ?_⟩
  · rw [placed.nodup_iff, List.nodup_cons]
    exact ⟨custody.apart t p owned, custody.nodup⟩
  · intro q member
    rcases List.mem_cons.mp (placed.mem_iff.mp member) with same | old
    · rw [same]
      exact custody.owned t p owned
    · exact custody.kept q old
  · intro u q theirs
    exact custody.owned u q (update_none_eq_some theirs).2
  · intro u q theirs member
    rcases update_none_eq_some theirs with ⟨other, before⟩
    rcases List.mem_cons.mp (placed.mem_iff.mp member) with same | old
    · exact custody.others_of_owned owned other before same
    · exact custody.apart u q before old
  · intro u u' q theirs theirs'
    exact custody.once u u' q (update_none_eq_some theirs).2 (update_none_eq_some theirs').2
  · intro q member
    rw [placed.mem_iff, List.mem_cons]
    rcases custody.noLeak q member with onShelf | ⟨u, before⟩
    · exact Or.inl (Or.inr onShelf)
    · by_cases same : u = t
      · rw [same, owned, Option.some.injEq] at before
        exact Or.inl (Or.inl before.symm)
      · exact Or.inr ⟨u, by rwa [Function.update_of_ne same]⟩
  · intro u q lent
    exact placed.mem_iff.mpr (List.mem_cons_of_mem p (custody.borrowed u q lent))

/-- A thread takes an object off the shelf that nobody borrows. -/
theorem withdraw (custody : Custody live shelf owns borrows) (none : owns t = none)
    (placed : shelf.Perm (p :: shelf')) (unlent : ∀ u, borrows u ≠ some p) :
    Custody live shelf' (Function.update owns t (some p)) borrows := by
  have distinct := List.nodup_cons.mp (placed.nodup_iff.mp custody.nodup)
  have onShelf : p ∈ shelf := placed.mem_iff.mpr List.mem_cons_self
  have remains : ∀ q ∈ shelf', q ∈ shelf :=
    fun q member => placed.mem_iff.mpr (List.mem_cons_of_mem p member)
  have unowned : ∀ u, owns u ≠ some p := fun u before => custody.apart u p before onShelf
  refine ⟨distinct.2, fun q member => custody.kept q (remains q member), ?_, ?_,
    once_update_some custody.once unowned, ?_, ?_⟩
  · intro u q theirs
    rcases update_some_eq_some theirs with ⟨_, same⟩ | ⟨_, before⟩
    · rw [same]
      exact custody.kept p onShelf
    · exact custody.owned u q before
  · intro u q theirs
    rcases update_some_eq_some theirs with ⟨_, same⟩ | ⟨_, before⟩
    · rw [same]
      exact distinct.1
    · exact fun member => custody.apart u q before (remains q member)
  · intro q member
    rcases custody.noLeak q member with stood | ⟨u, theirs⟩
    · rcases List.mem_cons.mp (placed.mem_iff.mp stood) with same | rest
      · exact Or.inr ⟨t, by rw [same, Function.update_self]⟩
      · exact Or.inl rest
    · exact Or.inr ⟨u, update_eq_some_of_none none theirs⟩
  · intro u q lent
    rcases List.mem_cons.mp (placed.mem_iff.mp (custody.borrowed u q lent)) with same | rest
    · rw [same] at lent
      exact absurd lent (unlent u)
    · exact rest

/-- A thread frees its object. -/
theorem free (custody : Custody live shelf owns borrows) (owned : owns t = some p) :
    Custody (live \ {p}) shelf (Function.update owns t none) borrows := by
  refine ⟨custody.nodup, ?_, ?_, ?_, ?_, ?_, custody.borrowed⟩
  · intro q member
    refine ⟨custody.kept q member, ?_⟩
    intro same
    rw [Set.mem_singleton_iff.mp same] at member
    exact custody.apart t p owned member
  · intro u q theirs
    rcases update_none_eq_some theirs with ⟨other, before⟩
    exact ⟨custody.owned u q before, custody.others_of_owned owned other before⟩
  · intro u q theirs
    exact custody.apart u q (update_none_eq_some theirs).2
  · intro u u' q theirs theirs'
    exact custody.once u u' q (update_none_eq_some theirs).2 (update_none_eq_some theirs').2
  · intro q member
    rcases custody.noLeak q member.1 with onShelf | ⟨u, theirs⟩
    · exact Or.inl onShelf
    · refine Or.inr ⟨u, ?_⟩
      rw [Function.update_of_ne, theirs]
      intro same
      rw [same, owned, Option.some.injEq] at theirs
      exact member.2 theirs.symm

/-- A thread starts to use an object of the shelf. -/
theorem borrow (custody : Custody live shelf owns borrows) (onShelf : p ∈ shelf) :
    Custody live shelf owns (Function.update borrows t (some p)) := by
  refine ⟨custody.nodup, custody.kept, custody.owned, custody.apart, custody.once,
    custody.noLeak, ?_⟩
  intro u q lent
  rcases update_some_eq_some lent with ⟨_, same⟩ | ⟨_, before⟩
  · rwa [same]
  · exact custody.borrowed u q before

/-- Objects change their places on the shelf. -/
theorem reorder (custody : Custody live shelf owns borrows) (placed : shelf'.Perm shelf) :
    Custody live shelf' owns borrows := by
  refine ⟨placed.nodup_iff.mpr custody.nodup, ?_, custody.owned, ?_, custody.once, ?_, ?_⟩
  · exact fun q member => custody.kept q (placed.mem_iff.mp member)
  · exact fun u q theirs member => custody.apart u q theirs (placed.mem_iff.mp member)
  · exact fun q member => (custody.noLeak q member).imp placed.mem_iff.mpr id
  · exact fun u q lent => placed.mem_iff.mpr (custody.borrowed u q lent)

theorem giveBack (custody : Custody live shelf owns borrows) :
    Custody live shelf owns (Function.update borrows t none) := by
  refine ⟨custody.nodup, custody.kept, custody.owned, custody.apart, custody.once,
    custody.noLeak, ?_⟩
  intro u q lent
  exact custody.borrowed u q (update_none_eq_some lent).2

end Custody

end Linguafranca
