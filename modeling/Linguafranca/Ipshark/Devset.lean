import Linguafranca.Ipshark.Intern
import Linguafranca.Support.CString
import Mathlib.Logic.Function.Basic

/-!
# The device set of ipshark

`devset.c` keeps the configured device names in a hash table and whether they are a white
or a black list. The hash function `jhash` of the kernel is a parameter. The outcome of each
`kmalloc` is an argument; in `devset_add` it is a function of the position in the list of
names, and a name whose entry cannot be allocated is left out.
-/

namespace Linguafranca.Ipshark

/-- The table has two to this power of buckets. -/
def devnameHashBits : ℕ := 8

/-- The initial value that the names are hashed with. -/
def devNameHashInitval : UInt32 := 19830409

/-- The static variables of `devset.c`. -/
structure Devset where
  devHashtable : Option (ℕ → List DevEntry)
  whiteBlack : Int

section

variable (jhash : List UInt8 → UInt32 → UInt32)

/-- The bucket of a hash: its lowest bits. -/
def smallJhash (hash : UInt32) : ℕ :=
  (hash &&& ((1 <<< UInt32.ofNat devnameHashBits) - 1)).toNat

/-- The hash of the string at the start of some bytes. -/
def devHash (devname : List UInt8) : UInt32 :=
  jhash (cString devname) devNameHashInitval

/-- The first entry of a bucket with the hash and the name. -/
def getEntryInHlist (name : List UInt8) (hash : UInt32) (head : List DevEntry) :
    Option DevEntry :=
  head.find? fun pos => hash = pos.hash ∧ strncmpEq ifnamsiz pos.n.toList name

/-- `devset_init`: an empty table, if there is memory for it. -/
def devsetInit (kmalloc : Bool) (set : Devset) : Int × Devset :=
  if kmalloc then (0, { set with devHashtable := some fun _ => [] })
  else (-enomem, { set with devHashtable := none })

/-- Add the names from an index on; a name's string ends in the array at the latest. -/
def addNames (kmalloc : ℕ → Bool) (table : ℕ → List DevEntry) : ℕ → List Devname → ℕ → List DevEntry
  | _, [] => table
  | ii, name :: rest =>
      let memory := (name :: rest).flatMap Bytes.toList
      let hash := devHash jhash memory
      let head := smallJhash hash
      if (getEntryInHlist memory hash (table head)).isSome then
        addNames kmalloc table (ii + 1) rest
      else if !kmalloc ii then addNames kmalloc table (ii + 1) rest
      else
        addNames kmalloc (Function.update table head (⟨name, hash⟩ :: table head)) (ii + 1) rest

/-- `devset_add`: the names are added to an unset device set, then the mode is stored. -/
def devsetAdd (kmalloc : ℕ → Bool) (l : Option DevnameList) (set : Devset) : Int × Devset :=
  match set.devHashtable with
  | none => (-enomem, set)
  | some table =>
      if set.whiteBlack ≠ ipsNone then (-eexist, set)
      else
        match l with
        | none => (-efault, set)
        | some l =>
            match l.namelist with
            | none => (-efault, set)
            | some namelist =>
                if l.whiteBlack = ipsNone then (-enoexec, set)
                else
                  let names := (List.range l.devnum.toNat).map namelist
                  (0, ⟨some (addNames jhash kmalloc table 0 names), l.whiteBlack⟩)

/-- One iteration of the loop, on the string that starts with the name. -/
def addName (kmalloc : Bool) (memory : List UInt8) (name : Devname)
    (table : ℕ → List DevEntry) : ℕ → List DevEntry :=
  let hash := devHash jhash memory
  let head := smallJhash hash
  if (getEntryInHlist memory hash (table head)).isSome then table
  else if !kmalloc then table
  else Function.update table head (⟨name, hash⟩ :: table head)

/-- With a list configured a NULL table is read, which has no result. -/
def devsetIgnore (devname : List UInt8) (set : Devset) : Option Bool :=
  let hash := devHash jhash devname
  let head := smallJhash hash
  if set.whiteBlack = ipsNone then some true
  else
    match set.devHashtable with
    | none => none
    | some table =>
        if (getEntryInHlist devname hash (table head)).isSome then
          some (set.whiteBlack = ipsBlack)
        else some (set.whiteBlack = ipsWhite)

/-- Every entry is freed and then the table. -/
def devsetExit (_set : Devset) : Devset :=
  ⟨none, ipsNone⟩

variable {jhash} {kmalloc : ℕ → Bool} {l : Option DevnameList} {set : Devset}

theorem addNames_cons (table : ℕ → List DevEntry) (ii : ℕ) (name : Devname)
    (rest : List Devname) :
    addNames jhash kmalloc table ii (name :: rest) =
      addNames jhash kmalloc
        (addName jhash (kmalloc ii) ((name :: rest).flatMap Bytes.toList) name table)
        (ii + 1) rest := by
  simp only [addNames, addName]
  split
  · rfl
  · split <;> rfl

theorem devsetAdd_cases (kmalloc : ℕ → Bool) (l : Option DevnameList) (set : Devset) :
    (devsetAdd jhash kmalloc l set).1 ≠ 0 ∧ (devsetAdd jhash kmalloc l set).2 = set ∨
      (devsetAdd jhash kmalloc l set).1 = 0 ∧ set.whiteBlack = ipsNone ∧
        (devsetAdd jhash kmalloc l set).2.whiteBlack ≠ ipsNone ∧
        (devsetAdd jhash kmalloc l set).2.devHashtable.isSome := by
  simp only [devsetAdd]
  split
  · left
    simp [enomem]
  · split
    · left
      simp [eexist]
    · next unset =>
        split
        · left
          simp [efault]
        · split
          · left
            simp [efault]
          · split
            · left
              simp [enoexec]
            · next configured =>
                right
                exact ⟨rfl, not_not.mp unset, configured, rfl⟩

/-- A list is accepted by a set that has a table and no list yet. -/
theorem devsetAdd_accepts {list : DevnameList} (table : set.devHashtable.isSome)
    (unset : set.whiteBlack = ipsNone) (names : list.namelist.isSome)
    (kind : list.whiteBlack ≠ ipsNone) : (devsetAdd jhash kmalloc (some list) set).1 = 0 := by
  rcases Option.isSome_iff_exists.mp table with ⟨buckets, present⟩
  rcases Option.isSome_iff_exists.mp names with ⟨namelist, given⟩
  simp [devsetAdd, present, unset, given, kind]

end

end Linguafranca.Ipshark
