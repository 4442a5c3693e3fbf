import Linguafranca.Ipshark.Devset
import Linguafranca.Support.Buckets

/-!
# The names in the device set of ipshark

The table of `devset_add` is filed: each entry is terminated, carries the hash of its name
and lies in the bucket of that hash, and no name lies in a bucket twice. The insertion loop
keeps this for any hash function, so that the lookup of `devset_ignore` decides whether a
name was listed.
-/

namespace Linguafranca.Ipshark

/-- The string ends within the size of a name. -/
abbrev Terminated (bytes : List UInt8) : Prop :=
  TerminatedIn ifnamsiz bytes

/-- The string of an entry. -/
def storedName (e : DevEntry) : List UInt8 :=
  cString e.n.toList

/-- The strings of a list of names. -/
def listed (names : List Devname) : List (List UInt8) :=
  names.map fun name => cString name.toList

/-- The names that a list points to. -/
def DevnameList.names (l : DevnameList) : List Devname :=
  match l.namelist with
  | none => []
  | some namelist => (List.range l.devnum.toNat).map namelist

section

variable (jhash : List UInt8 → UInt32 → UInt32)

/-- The bucket of a string. -/
def hashPlace (name : List UInt8) : ℕ :=
  smallJhash (jhash name devNameHashInitval)

/-- Entries lie in the buckets of their names, are terminated and carry their hash. -/
structure Filed (table : ℕ → List DevEntry) : Prop where
  buckets : Buckets.Filed storedName (hashPlace jhash) table
  entry : ∀ bucket, ∀ e ∈ table bucket,
    Terminated e.n.toList ∧ e.hash = devHash jhash e.n.toList

end

variable {jhash : List UInt8 → UInt32 → UInt32} {table : ℕ → List DevEntry}
  {bytes first second : List UInt8} {name : Devname} {set : Devset}

/-! ## Strings -/

@[simp]
theorem take_toList_append (name : Devname) (tail : List UInt8) :
    (name.toList ++ tail).take ifnamsiz = name.toList :=
  List.take_left' name.length_toList

theorem terminated_append (ends : Terminated name.toList) (tail : List UInt8) :
    Terminated (name.toList ++ tail) := by
  simp only [TerminatedIn, take_toList_append]
  exact List.mem_of_mem_take ends

theorem devHash_eq (bytes : List UInt8) :
    devHash jhash bytes = jhash (cString bytes) devNameHashInitval :=
  rfl

theorem hashPlace_lt (name : List UInt8) : hashPlace jhash name < 2 ^ devnameHashBits := by
  have small : ∀ hash : UInt32, smallJhash hash < 2 ^ devnameHashBits := by
    intro hash
    simp only [smallJhash, UInt32.toNat_and]
    exact lt_of_le_of_lt Nat.and_le_right (by decide)
  exact small _

/-! ## The table -/

theorem filed_empty : Filed jhash fun _ => [] :=
  ⟨Buckets.filed_empty, fun _ _ member => absurd member List.not_mem_nil⟩

theorem Filed.getEntryInHlist_isSome (filed : Filed jhash table) (ends : Terminated bytes) :
    (getEntryInHlist bytes (devHash jhash bytes)
        (table (smallJhash (devHash jhash bytes)))).isSome = true ↔
      cString bytes ∈ Buckets.keys storedName table := by
  rw [filed.buckets.mem_keys_iff, getEntryInHlist, List.find?_isSome]
  constructor
  · rintro ⟨e, member, found⟩
    rw [decide_eq_true_eq] at found
    exact ⟨e, member, (strncmpEq_iff (filed.entry _ e member).1 ends).mp found.2⟩
  · rintro ⟨e, member, same⟩
    have entry := filed.entry _ e member
    refine ⟨e, member, decide_eq_true ⟨?_, (strncmpEq_iff entry.1 ends).mpr same⟩⟩
    calc devHash jhash bytes = jhash (cString e.n.toList) devNameHashInitval := by
          rw [devHash_eq, ← same, storedName]
      _ = e.hash := entry.2.symm

section

variable {kmalloc : Bool} {tail : List UInt8}

theorem addName_of_mem (filed : Filed jhash table) (ends : Terminated name.toList)
    (known : cString name.toList ∈ Buckets.keys storedName table) :
    addName jhash kmalloc (name.toList ++ tail) name table = table := by
  have found := (filed.getEntryInHlist_isSome (terminated_append ends tail)).mpr
    (by rwa [cString_field_append ends])
  simp only [addName]
  rw [if_pos found]

theorem addName_of_not_mem (filed : Filed jhash table) (ends : Terminated name.toList)
    (fresh : cString name.toList ∉ Buckets.keys storedName table) :
    addName jhash true (name.toList ++ tail) name table =
      Buckets.push storedName (hashPlace jhash) table ⟨name, devHash jhash name.toList⟩ := by
  have missing : ¬_ := fun found => fresh <| by
    rw [← cString_field_append ends tail]
    exact (filed.getEntryInHlist_isSome (terminated_append ends tail)).mp found
  simp only [addName]
  rw [if_neg missing]
  simp [devHash_eq, cString_field_append ends, Buckets.push, hashPlace, storedName]

theorem Filed.push (filed : Filed jhash table) (ends : Terminated name.toList)
    (fresh : cString name.toList ∉ Buckets.keys storedName table) :
    Filed jhash
      (Buckets.push storedName (hashPlace jhash) table ⟨name, devHash jhash name.toList⟩) := by
  refine ⟨filed.buckets.push fresh, ?_⟩
  intro bucket e member
  rcases Buckets.mem_push.mp member with ⟨rfl, -⟩ | old
  · exact ⟨ends, rfl⟩
  · exact filed.entry bucket e old

theorem Filed.addName (filed : Filed jhash table) (ends : Terminated name.toList)
    (tail : List UInt8) :
    Filed jhash (addName jhash true (name.toList ++ tail) name table) ∧
      Buckets.keys storedName (Ipshark.addName jhash true (name.toList ++ tail) name table) =
        insert (cString name.toList) (Buckets.keys storedName table) := by
  by_cases known : cString name.toList ∈ Buckets.keys storedName table
  · rw [addName_of_mem filed ends known]
    exact ⟨filed, (Set.insert_eq_of_mem known).symm⟩
  · rw [addName_of_not_mem filed ends known]
    exact ⟨filed.push ends known, Buckets.keys_push⟩

end

theorem Filed.addNames (filed : Filed jhash table) (ii : ℕ) {names : List Devname}
    (ends : ∀ name ∈ names, Terminated name.toList) :
    Filed jhash (addNames jhash (fun _ => true) table ii names) ∧
      ∀ s, s ∈ Buckets.keys storedName
          (Ipshark.addNames jhash (fun _ => true) table ii names) ↔
        s ∈ listed names ∨ s ∈ Buckets.keys storedName table := by
  induction names generalizing table ii with
  | nil => exact ⟨filed, fun s => by simp [Ipshark.addNames, listed]⟩
  | cons name rest ih =>
      have nameEnds := ends name List.mem_cons_self
      have added := filed.addName nameEnds (rest.flatMap Bytes.toList)
      have later := ih added.1 (ii + 1) fun other member =>
        ends other (List.mem_cons_of_mem name member)
      rw [addNames_cons, List.flatMap_cons]
      refine ⟨later.1, ?_⟩
      intro s
      rw [later.2, added.2, Set.mem_insert_iff]
      simp only [listed, List.map_cons, List.mem_cons]
      tauto

/-! ## The decision -/

theorem devsetIgnore_of_none (unset : set.whiteBlack = ipsNone) (bytes : List UInt8) :
    devsetIgnore jhash bytes set = some true := by
  simp [devsetIgnore, unset]

/-- With a list configured the table decides. -/
theorem devsetIgnore_of_filed (filed : Filed jhash table) {mode : Int} (configured : mode ≠ ipsNone)
    (ends : Terminated bytes) :
    ∃ ignored, devsetIgnore jhash bytes ⟨some table, mode⟩ = some ignored ∧
      (ignored = true ↔
        cString bytes ∈ Buckets.keys storedName table ∧ mode = ipsBlack ∨
          cString bytes ∉ Buckets.keys storedName table ∧ mode = ipsWhite) := by
  rw [← filed.getEntryInHlist_isSome ends]
  simp only [devsetIgnore, configured, if_false]
  by_cases found : (getEntryInHlist bytes (devHash jhash bytes)
      (table (smallJhash (devHash jhash bytes)))).isSome
  · rw [if_pos found]
    exact ⟨_, rfl, by simp [found]⟩
  · rw [if_neg found]
    exact ⟨_, rfl, by simp [found]⟩

theorem devsetAdd_accepted {kmalloc : ℕ → Bool} {l : DevnameList}
    (accepted : (devsetAdd jhash kmalloc (some l) (devsetInit true set).2).1 = 0) :
    set.whiteBlack = ipsNone ∧ l.whiteBlack ≠ ipsNone ∧
      (devsetAdd jhash kmalloc (some l) (devsetInit true set).2).2 =
        ⟨some (addNames jhash kmalloc (fun _ => []) 0 l.names), l.whiteBlack⟩ := by
  simp only [devsetAdd, devsetInit, if_true] at accepted ⊢
  by_cases unset : set.whiteBlack = ipsNone
  · rw [if_neg (not_not.mpr unset)] at accepted ⊢
    cases given : l.namelist with
    | none => simp [given, efault] at accepted
    | some namelist =>
        by_cases kind : l.whiteBlack = ipsNone
        · simp [given, kind, enoexec] at accepted
        · simp only [kind, if_false, DevnameList.names, given]
          exact ⟨unset, kind, trivial⟩
  · rw [if_pos unset] at accepted
    simp [eexist] at accepted

/-- The filter of an accepted list decides membership, each name is stored
once, and a list that is refused changes nothing. -/
theorem devsetIgnore_decides {l : DevnameList}
    (accepted : (devsetAdd jhash (fun _ => true) (some l) (devsetInit true set).2).1 = 0)
    (ends : ∀ name ∈ l.names, Terminated name.toList) :
    (∀ bytes, devsetIgnore jhash bytes (devsetInit true set).2 = some true) ∧
      (∀ bytes, Terminated bytes → ∃ ignored,
        devsetIgnore jhash bytes
            (devsetAdd jhash (fun _ => true) (some l) (devsetInit true set).2).2 =
          some ignored ∧
        (ignored = true ↔
          cString bytes ∈ listed l.names ∧ l.whiteBlack = ipsBlack ∨
            cString bytes ∉ listed l.names ∧ l.whiteBlack = ipsWhite)) ∧
      (∃ table,
        (devsetAdd jhash (fun _ => true) (some l) (devsetInit true set).2).2.devHashtable =
          some table ∧
        ((Buckets.entries (2 ^ devnameHashBits) table).map storedName).Perm
          (listed l.names).dedup) ∧
      ∀ (kmalloc : ℕ → Bool) (other : Option DevnameList) (before : Devset),
        (devsetAdd jhash kmalloc other before).1 ≠ 0 →
          (devsetAdd jhash kmalloc other before).2 = before := by
  rcases devsetAdd_accepted accepted with ⟨unset, configured, after⟩
  rcases (@filed_empty jhash).addNames 0 ends with ⟨filed, stored⟩
  have same : ∀ s, s ∈ Buckets.keys storedName
      (addNames jhash (fun _ => true) (fun _ => []) 0 l.names) ↔ s ∈ listed l.names := by
    intro s
    simpa using stored s
  rw [after]
  refine ⟨?_, ?_, ?_, ?_⟩
  · exact devsetIgnore_of_none unset
  · intro bytes bytesEnd
    simpa only [same] using devsetIgnore_of_filed filed configured bytesEnd
  · exact ⟨_, rfl, filed.buckets.entries_perm_dedup hashPlace_lt same⟩
  · intro kmalloc other before refused
    rcases devsetAdd_cases kmalloc other before with ⟨-, unchanged⟩ | ⟨done, -⟩
    · exact unchanged
    · exact absurd done refused

/-- Two names, one of them twice, in one bucket. -/
def twoNames : DevnameList :=
  { whiteBlack := ipsBlack
    devnum := 3
    namelist := some fun i => if i = 1 then ⟨1 :: List.replicate 15 0, rfl⟩ else Bytes.zero 16 }

theorem devsetIgnore_decides_twoNames :
    ∃ ignored, devsetIgnore (fun _ _ => 0) (1 :: List.replicate 15 0)
        (devsetAdd (fun _ _ => 0) (fun _ => true) (some twoNames)
          (devsetInit true ⟨none, ipsNone⟩).2).2 = some ignored ∧
      (ignored = true ↔
        cString (1 :: List.replicate 15 0) ∈ listed twoNames.names ∧
            twoNames.whiteBlack = ipsBlack ∨
          cString (1 :: List.replicate 15 0) ∉ listed twoNames.names ∧
            twoNames.whiteBlack = ipsWhite) :=
  (devsetIgnore_decides rfl (by decide)).2.1 _ (by decide)

end Linguafranca.Ipshark
