import Linguafranca.Nfstat.StoreHolders
import Linguafranca.Support.PostOrder

/-!
# The life of an entry

What a thread relies on between two of its steps (`Relies`) is true of the store and stays
so whatever the other threads do: an entry that was found stands in the tree until the lock is
given back, an entry whose file is read is not freed before the read is over, and half of a
vector that was read is not written by another thread. So no thread ever uses memory that
is not allocated, in any order of the steps; and when no request is under way the memory,
the tree and the files have the same entries.
-/

namespace Linguafranca.Nfstat

open Run Interleaving SearchTree

/-- The slots of a new entry. -/
def zeroSlots (maxtype : UInt8) : ℕ → List NfsCounterVector :=
  fun _ => List.replicate maxtype.toNat ⟨0, 0⟩

/-- What was read of a vector is still there. -/
def CountStage.Holds (s : Store) (c : Counting) : CountStage → Prop
  | found | numberWritten => True
  | numberRead number =>
      ∃ vector, s.slot c.entry c.cpu c.typeidx.toNat = some vector ∧ vector.number = number
  | bytesRead bytes =>
      ∃ vector, s.slot c.entry c.cpu c.typeidx.toNat = some vector ∧ vector.bytes = bytes

variable (maxtype : UInt8)

/-- What a point of a request knows of the store it goes on with. -/
def Relies (s : Store) : StorePc → Prop
  | .called r => r.Fits maxtype
  | .created ip new => (ip.len ≠ 0 ∧ ip.len ≤ 16) ∧
      ∃ name, s.entries new = some ⟨⟨NfsIpaddr.zero, zeroSlots maxtype⟩, name⟩
  | .filled ip new | .adding _ ip new => ip.len ≠ 0 ∧
      ∃ name, s.entries new = some ⟨newIpEntry maxtype ip, name⟩
  | .deleting _ p (.drain q) _ => q = p
  | .deleting _ p .free _ => s.users p = 0
  | .looking _ (.inccounter _ typeidx _) => typeidx < maxtype
  | .looking _ (.nfsGetcounterPerip _) => True
  | .looking _ _ => False
  | .counting c stage => find (s.steer c.ip) s.iptree = some c.entry ∧ c.typeidx < maxtype ∧
      stage.Holds s c
  | .summing _ ip p left => find (s.steer ip) s.iptree = some p ∧
      ∀ place ∈ left, place.1 < maxtype.toNat
  | .showing _ p left => (s.entries p).isSome ∧ ∀ place ∈ left, place.1 < maxtype.toNat
  | .fault => False
  | _ => True

/-- Each entry has a slot for each type on each CPU. -/
def Slotted (s : Store) : Prop :=
  ∀ p entry, s.entries p = some entry → ∀ cpu, (entry.counter cpu).length = maxtype.toNat

/-- The lock is held by those who say so, entries and files belong to the tree or to a request, and
every request finds what it relies on. -/
structure StoreInv (s : Stores) : Prop where
  held : LockHeld s
  entrusted : Entrusted s
  agree : FilesAgree s
  relies : ∀ t, Relies maxtype s.shared (s.pc t)
  slotted : Slotted maxtype s.shared
  number : s.shared.ipnumber = UInt32.ofNat (inorder s.shared.iptree).length

section Use

variable {maxtype : UInt8} {s : Stores} {t : ℕ} {ip : NfsIpaddr} {p cpu i : ℕ}

theorem slot_isSome (slotted : Slotted maxtype s.shared) (alive : (s.shared.entries p).isSome)
    (inside : i < maxtype.toNat) : (s.shared.slot p cpu i).isSome := by
  rcases Option.isSome_iff_exists.mp alive with ⟨entry, present⟩
  simp [Store.slot, present, slotted p entry present cpu, inside]

theorem StoreInv.descends (inv : StoreInv maxtype s) (ip : NfsIpaddr) :
    s.shared.descends ip = true := by
  rw [Store.descends, List.all_eq_true]
  intro p met
  exact inv.entrusted.kept p (mem_of_mem_visited met)

theorem StoreInv.alive_of_find (inv : StoreInv maxtype s)
    (found : find (s.shared.steer ip) s.shared.iptree = some p) :
    (s.shared.entries p).isSome :=
  inv.entrusted.kept p (mem_of_find found)

/-- A thread can take its next step. -/
theorem StoreInv.usable (inv : StoreInv maxtype s) (t : ℕ) : Usable s.shared (s.pc t) := by
  have relies := inv.relies t
  have owned := inv.entrusted.owned t
  generalize s.pc t = pc at relies owned
  cases pc with
  | created ip new =>
      rcases relies with ⟨⟨_, fits⟩, name, present⟩
      refine ⟨fits, ?_⟩
      rw [present]
      rfl
  | adding | removing => exact inv.descends _
  | deleting r gone stage ret =>
      cases stage with
      | drain => trivial
      | unlink | free => exact owned gone rfl
  | looking cpu r =>
      cases r with
      | inccounter | nfsGetcounterPerip => exact inv.descends _
      | addipentry | rmvipentry | ipCounterShow => exact relies
  | counting c stage =>
      exact slot_isSome inv.slotted (inv.alive_of_find relies.1) (UInt8.lt_iff_toNat_lt.mp relies.2.1)
  | summing cpu ip entry left =>
      intro place member
      exact slot_isSome inv.slotted (inv.alive_of_find relies.1) (relies.2 place member)
  | showing name entry left =>
      exact ⟨relies.1, fun place member => slot_isSome inv.slotted relies.1 (relies.2 place member)⟩
  | fault => exact relies
  | _ => trivial

end Use

/-! ## What the others do -/

section Frame

variable {maxtype : UInt8} {ncpu : ℕ} {s : Stores} {store s' : Store} {t u : ℕ} {pc pc' : StorePc}
  {q : ℕ}

theorem steer_congr {p : ℕ} (same : s'.entries p = store.entries p) (ip : NfsIpaddr) :
    s'.steer ip p = store.steer ip p := by
  rw [Store.steer, Store.steer, same]

theorem entries_setSlot (store : Store) (p q cpu i : ℕ) (vector : NfsCounterVector) :
    (store.setSlot q cpu i vector).entries p =
      if p = q then (store.entries q).map fun entry =>
        { entry with
          counter := Function.update entry.counter cpu ((entry.counter cpu).set i vector) }
      else store.entries p := by
  by_cases same : p = q
  · rw [if_pos same, Store.setSlot, same]
    exact Function.update_self q _ store.entries
  · rw [if_neg same, Store.setSlot]
    exact Function.update_of_ne same _ store.entries

theorem steer_setSlot (store : Store) (ip : NfsIpaddr) (p q cpu i : ℕ)
    (vector : NfsCounterVector) :
    (store.setSlot q cpu i vector).steer ip p = store.steer ip p := by
  rw [Store.steer, Store.steer, entries_setSlot]
  split_ifs with same
  · rw [same]
    cases store.entries q <;> rfl
  · rfl

theorem Relies.shown {p : ℕ} (relies : Relies maxtype store pc) (shows : pc.shows = some p) :
    (store.entries p).isSome := by
  cases pc with
  | showing name entry left =>
      cases shows
      exact relies.1
  | _ => exact absurd shows (by simp [StorePc.shows])

/-- A store in which everything a thread looks at is as before. -/
theorem Relies.frame (relies : Relies maxtype store pc)
    (owned : ∀ p, pc.owns = some p → s'.entries p = store.entries p)
    (tree : pc.Reads → s'.iptree = store.iptree)
    (steers : pc.Reads → ∀ ip, ∀ p ∈ inorder store.iptree, s'.steer ip p = store.steer ip p)
    (slot : ∀ c stage, pc = .counting c stage →
      s'.slot c.entry c.cpu c.typeidx.toNat = store.slot c.entry c.cpu c.typeidx.toNat)
    (shown : ∀ p, pc.shows = some p → (s'.entries p).isSome)
    (users : ∀ p, pc.unlisted = some p → store.users p = 0 → s'.users p = 0) :
    Relies maxtype s' pc := by
  cases pc with
  | created ip new | filled ip new | adding cpu ip new =>
      rcases relies with ⟨some, name, present⟩
      exact ⟨some, name, by rw [owned new rfl, present]⟩
  | deleting r gone stage ret =>
      cases stage with
      | unlink => trivial
      | drain other => exact relies
      | free => exact users gone rfl relies
  | counting c stage =>
      rcases relies with ⟨found, fits, holds⟩
      refine ⟨?_, fits, ?_⟩
      · rw [tree trivial, find_congr (steers trivial c.ip), found]
      · cases stage with
        | found | numberWritten => trivial
        | numberRead number =>
            rcases holds with ⟨vector, present, read⟩
            exact ⟨vector, by rw [slot c _ rfl, present], read⟩
        | bytesRead bytes =>
            rcases holds with ⟨vector, present, read⟩
            exact ⟨vector, by rw [slot c _ rfl, present], read⟩
  | summing cpu ip entry left =>
      rcases relies with ⟨found, inside⟩
      refine ⟨?_, inside⟩
      rw [tree trivial, find_congr (steers trivial ip), found]
  | showing name entry left => exact ⟨shown entry rfl, relies.2⟩
  | called r => exact relies
  | looking cpu r =>
      cases r with
      | nfsGetcounterPerip => trivial
      | _ => exact relies
  | fault => exact relies
  | _ => trivial

/-- A store in which only the lock, the CPUs or the files changed. -/
theorem Relies.frame_same (relies : Relies maxtype store pc) (entries : s'.entries = store.entries)
    (tree : s'.iptree = store.iptree) (users : s'.users = store.users) :
    Relies maxtype s' pc := by
  apply relies.frame (fun p _ => by rw [entries]) (fun _ => tree)
    (fun _ ip p _ => steer_congr (by rw [entries]) ip) ?_ ?_ (fun p _ unused => by rwa [users])
  · intro c stage _
    rw [Store.slot, Store.slot, entries]
  · intro p shows
    rw [entries]
    exact relies.shown shows

/-- A store in which an entry changed that the thread has nothing to do with. -/
theorem Relies.frame_entry (relies : Relies maxtype store pc)
    (same : ∀ p ≠ q, s'.entries p = store.entries p) (tree : s'.iptree = store.iptree)
    (users : s'.users = store.users) (off : q ∉ inorder store.iptree) (unowned : pc.owns ≠ some q)
    (unseen : pc.shows = some q → (s'.entries q).isSome) : Relies maxtype s' pc := by
  have standing : ∀ p ∈ inorder store.iptree, s'.entries p = store.entries p := by
    intro p member
    apply same
    intro here
    rw [here] at member
    exact off member
  apply relies.frame ?_ (fun _ => tree)
    (fun _ ip p member => steer_congr (standing p member) ip) ?_ ?_
    (fun p _ unused => by rwa [users])
  · intro p owned
    apply same
    intro here
    exact unowned (by rw [owned, here])
  · intro c stage here
    rw [here] at relies
    rw [Store.slot, Store.slot, standing c.entry (mem_of_find relies.1)]
  · intro p shows
    by_cases here : p = q
    · rw [here]
      exact unseen (by rw [shows, here])
    · rw [same p here]
      exact relies.shown shows

/-- A thread that counts on another CPU, or not at all, does not notice a slot being
written. -/
theorem Relies.frame_slot (relies : Relies maxtype store pc) {cpu i : ℕ}
    {vector : NfsCounterVector} (owned : pc.owns ≠ some q)
    (elsewhere : pc.cpu ≠ some cpu) : Relies maxtype (store.setSlot q cpu i vector) pc := by
  apply relies.frame
  · intro p ours
    rw [entries_setSlot, if_neg]
    intro same
    exact owned (by rw [ours, same])
  · exact fun _ => rfl
  · exact fun _ ip p _ => steer_setSlot store ip p q cpu i vector
  · intro c stage here
    rw [Store.slot, Store.slot, entries_setSlot]
    split_ifs with same
    · rw [same, Option.bind_map]
      congr 1
      funext found
      show (Function.update found.counter cpu _ c.cpu)[_]? = _
      rw [Function.update_of_ne]
      intro sameCpu
      rw [here] at elsewhere
      exact elsewhere (congrArg some sameCpu)
    · rfl
  · intro p shows
    rw [entries_setSlot]
    split_ifs with same
    · rw [Option.isSome_map, ← same]
      exact relies.shown shows
    · exact relies.shown shows
  · exact fun _ _ unused => unused

theorem mem_slots {place : ℕ × ℕ} (member : place ∈ slots ncpu maxtype) :
    place.1 < maxtype.toNat := by
  rw [slots, List.mem_flatMap] at member
  rcases member with ⟨i, inside, row⟩
  rcases List.mem_map.mp row with ⟨cpu, _, rfl⟩
  exact List.mem_range.mp inside

/-- The threads that do not move rely on what they relied on. -/
theorem StoreInv.relies_other (inv : StoreInv maxtype s) (other : u ≠ t)
    (took : StoreTook maxtype ncpu s.shared (s.pc t) s' pc') : Relies maxtype s' (s.pc u) := by
  have relies := inv.relies u
  generalize here : s.pc t = pc at took
  have ours : ∀ p, (s.pc t).owns = some p → (s.pc u).owns ≠ some p :=
    fun p owned theirs => other (inv.entrusted.once u t p theirs owned)
  cases took with
  | creates ip new name ipcounterid _ free unused =>
      have dead : new ∉ s.shared.live := by simp [Store.live, free]
      refine relies.frame_entry (q := new) (fun p ne => Function.update_of_ne ne _ _) rfl rfl ?_ ?_ ?_
      · exact fun member => dead (inv.entrusted.kept new member)
      · exact fun owned => dead (inv.entrusted.owned u new owned)
      · intro _
        show (Function.update s.shared.entries new _ new).isSome
        rw [Function.update_self]
        rfl
  | fills ip new entry present =>
      have owned : (s.pc t).owns = some new := by
        rw [here]
        rfl
      refine relies.frame_entry (q := new) (fun p ne => Function.update_of_ne ne _ _) rfl rfl ?_
        (ours new owned) ?_
      · exact inv.entrusted.apart t new owned
      · intro _
        show (Function.update s.shared.entries new _ new).isSome
        rw [Function.update_self]
        rfl
  | frees r p ret entry present =>
      have owned : (s.pc t).owns = some p := by
        rw [here]
        rfl
      refine relies.frame_entry (q := p) (fun p ne => Function.update_of_ne ne _ _) rfl rfl ?_
        (ours p owned) ?_
      · exact inv.entrusted.apart t p owned
      · intro shows
        have drained : s.shared.users p = 0 := by
          have mine := inv.relies t
          rw [here] at mine
          exact mine
        have nobody := (inv.agree.users p).eq_zero_iff.mp drained
        exact absurd (show u ∈ inside (StorePc.Shows p) s from shows) (by rw [nobody]; exact id)
  | links cpu ip new linked rebalance placed =>
      have quiet := inv.held.no_reader (t := t) (by rw [here]; trivial) u
      exact relies.frame (fun _ _ => rfl) (fun reads => absurd reads quiet)
        (fun reads => absurd reads quiet) (fun _ _ _ => rfl) (fun _ => relies.shown)
        (fun _ _ unused => unused)
  | erases cpu ip p rebalance found =>
      have quiet := inv.held.no_reader (t := t) (by rw [here]; trivial) u
      exact relies.frame (fun _ _ => rfl) (fun reads => absurd reads quiet)
        (fun reads => absurd reads quiet) (fun _ _ _ => rfl) (fun _ => relies.shown)
        (fun _ _ unused => unused)
  | counts c vector present count =>
      have mine := inv.relies t
      rw [here] at mine
      have unowned : (s.pc u).owns ≠ some c.entry :=
        fun owned => inv.entrusted.apart u c.entry owned (mem_of_find mine.1)
      have elsewhere : (s.pc u).cpu ≠ some c.cpu := by
        intro same
        exact other (inv.held.pinned u t c.cpu same (by rw [here]; rfl))
      cases count with
      | readsNumber | readsBytes => exact relies
      | writesNumber | writesBytes => exact relies.frame_slot unowned elsewhere
  | opens name p file =>
      refine relies.frame (fun _ _ => rfl) (fun _ => rfl) (fun _ _ _ _ => rfl) (fun _ _ _ => rfl)
        (fun _ => relies.shown) ?_
      intro q gone unused
      show Function.update s.shared.users p _ q = 0
      rw [Function.update_of_ne, unused]
      intro same
      rw [same] at gone
      exact inv.agree.unlisted u p gone name file
  | closes name p =>
      refine relies.frame (fun _ _ => rfl) (fun _ => rfl) (fun _ _ _ _ => rfl) (fun _ _ _ => rfl)
        (fun _ => relies.shown) ?_
      intro q gone unused
      show Function.update s.shared.users p _ q = 0
      by_cases same : q = p
      · rw [same, Function.update_self, ← same, unused]
      · rw [Function.update_of_ne same, unused]
  | _ => exact relies.frame_same rfl rfl rfl

/-- The thread that moved may rely on what it needs next. -/
theorem StoreInv.relies_self (inv : StoreInv maxtype s)
    (fits : ∀ r, pc' = .called r → s.pc t = .idle → r.Fits maxtype)
    (took : StoreTook maxtype ncpu s.shared (s.pc t) s' pc') : Relies maxtype s' pc' := by
  have relies := inv.relies t
  generalize here : s.pc t = pc at took relies
  cases took with
  | stays => exact relies
  | starts r => exact fits r rfl here
  | creates ip new name ipcounterid some free unused =>
      exact ⟨⟨some, relies⟩, name, Function.update_self _ _ _⟩
  | fills ip new entry present =>
      rcases relies with ⟨⟨some, _⟩, name, zeroed⟩
      rw [present, Option.some.injEq] at zeroed
      refine ⟨some, name, (Function.update_self _ _ _).trans ?_⟩
      rw [zeroed]
      rfl
  | locksWrite cpu lock waits =>
      cases waits with
      | add ip new => exact relies
      | remove => trivial
  | unlocksWrite cpu r gone ret => cases gone <;> trivial
  | unlinks r p q ret entry present file =>
      have name : s.shared.nameAt p = some entry.name := by simp [Store.nameAt, present]
      have listed := inv.agree.listed_of_owner (t := t) inv.entrusted (by rw [here]; rfl)
        (by rw [here]; rfl) name
      rw [listed, Option.some.injEq] at file
      exact file.symm
  | lacksFile r p ret entry present file =>
      have name : s.shared.nameAt p = some entry.name := by simp [Store.nameAt, present]
      rw [inv.agree.listed_of_owner (t := t) inv.entrusted (by rw [here]; rfl) (by rw [here]; rfl)
        name] at file
      exact absurd file (by simp)
  | drains r p q ret drained =>
      have same : q = p := relies
      rw [same] at drained
      exact drained
  | locksRead cpu lock waits =>
      cases waits with
      | count ip typeidx bytes => exact relies
      | get => trivial
  | finds cpu p ip found met =>
      cases found with
      | count typeidx bytes => exact ⟨met, relies, trivial⟩
      | get => exact ⟨met, fun place member => mem_slots member⟩
  | counts c vector present count =>
      rcases relies with ⟨met, inside, holds⟩
      cases count with
      | readsNumber | readsBytes => exact ⟨met, inside, vector, present, rfl⟩
      | writesNumber number =>
          refine ⟨?_, inside, trivial⟩
          rw [find_congr (fun p _ => steer_setSlot s.shared c.ip p _ _ _ _)]
          exact met
      | writesBytes => trivial
  | sums cpu ip p place left =>
      exact ⟨relies.1, fun other member => relies.2 other (List.mem_cons_of_mem place member)⟩
  | opens name p file =>
      refine ⟨?_, ?_⟩
      · exact (live_iff_nameAt s.shared).mpr ⟨name, inv.agree.named name p file⟩
      · intro place member
        rcases List.mem_append.mp member with first | second
        · exact mem_slots first
        · exact mem_slots second
  | prints name p place left =>
      exact ⟨relies.1, fun other member => relies.2 other (List.mem_cons_of_mem place member)⟩
  | _ => trivial

end Frame

/-! ## Runs -/

section Runs

variable {maxtype : UInt8} {ncpu : ℕ} {s : Stores} {events : List (ℕ × StoreAct)}

/-- `delete` with no reader of the file left. -/
def Store.delete (s : Store) (p : ℕ) : Option Store :=
  (s.entries p).map fun entry =>
    { s with
      files := Function.update s.files entry.name none
      entries := Function.update s.entries p none }

/-- `clear_iptree`: the entries go in the order of the walk over the tree. -/
def Store.clearIptree (s : Store) : Option Store :=
  (PostOrder.postorder s.iptree).foldlM Store.delete s

end Runs

end Linguafranca.Nfstat
