import Linguafranca.Nfstat.Store

/-!
# What a step on the store can do

`Usable` is what a thread needs of the memory to take its next step without a fault. A
thread that has it takes one of the steps of `StoreTook`, which says for each what the thread saw
and what it left.
-/

namespace Linguafranca.Nfstat

open SearchTree

namespace StorePc

/-- Whether the thread holds the lock for reading. -/
def Reads : StorePc → Prop
  | looking _ _ | counting _ _ | summing _ _ _ _ | looked _ _ _ => True
  | _ => False

/-- Whether the thread holds the lock for writing. -/
def Writes : StorePc → Prop
  | adding _ _ _ | removing _ _ | changed _ _ _ _ => True
  | _ => False

/-- The CPU a thread has for itself. -/
def cpu : StorePc → Option ℕ
  | adding cpu _ _ | removing cpu _ | changed cpu _ _ _ | looking cpu _ | summing cpu _ _ _
  | looked cpu _ _ => some cpu
  | counting c _ => some c.cpu
  | _ => none

/-- The entry that only this thread may free. -/
def owns : StorePc → Option ℕ
  | created _ new | filled _ new | adding _ _ new => some new
  | changed _ _ gone _ => gone
  | deleting _ gone _ _ => some gone
  | _ => none

/-- The entry of the tree the thread uses under the lock. -/
def borrows : StorePc → Option ℕ
  | counting c _ => some c.entry
  | summing _ _ entry _ => some entry
  | _ => none

/-- The entry whose file the thread reads. -/
def shows : StorePc → Option ℕ
  | showing _ entry _ => some entry
  | _ => none

end StorePc

/-- The entry under the address of the thread and its slots are there, and an address to copy
fits. -/
def Usable (s : Store) : StorePc → Prop
  | .created ip new => ip.len ≤ 16 ∧ (s.entries new).isSome
  | .adding _ ip _ | .removing _ ip => s.descends ip
  | .deleting _ p .unlink _ | .deleting _ p .free _ => (s.entries p).isSome
  | .looking _ (.inccounter ip _ _) | .looking _ (.nfsGetcounterPerip ip) => s.descends ip
  | .looking _ _ => False
  | .counting c _ => (s.slot c.entry c.cpu c.typeidx.toNat).isSome
  | .summing _ _ p left => ∀ place ∈ left, (s.slot p place.2 place.1).isSome
  | .showing _ p left =>
      (s.entries p).isSome ∧ ∀ place ∈ left, (s.slot p place.2 place.1).isSome
  | .fault => False
  | _ => True

/-- A thread that waits for the lock, and where it goes on with it. -/
inductive WaitsToWrite (cpu : ℕ) : StorePc → StorePc → Prop where
  | add (ip : NfsIpaddr) (new : ℕ) : WaitsToWrite cpu (.filled ip new) (.adding cpu ip new)
  | remove (ip : NfsIpaddr) :
      WaitsToWrite cpu (.called (.rmvipentry ip)) (.removing cpu ip)

/-- The two requests that take the lock for reading, before and after. -/
inductive WaitsToRead (cpu : ℕ) : StorePc → StorePc → Prop where
  | count (ip : NfsIpaddr) (typeidx : UInt8) (bytes : UInt64) :
      WaitsToRead cpu (.called (.inccounter ip typeidx bytes))
        (.looking cpu (.inccounter ip typeidx bytes))
  | get (ip : NfsIpaddr) :
      WaitsToRead cpu (.called (.nfsGetcounterPerip ip)) (.looking cpu (.nfsGetcounterPerip ip))

/-- What a thread does once it has looked an address up. -/
inductive Finds (ncpu : ℕ) (maxtype : UInt8) (cpu p : ℕ) (ip : NfsIpaddr) :
    StoreRequest → StorePc → Prop where
  | count (typeidx : UInt8) (bytes : UInt64) : Finds ncpu maxtype cpu p ip
      (.inccounter ip typeidx bytes) (.counting ⟨cpu, ip, p, typeidx, bytes⟩ .found)
  | get : Finds ncpu maxtype cpu p ip (.nfsGetcounterPerip ip)
      (.summing cpu ip p (slots ncpu maxtype))

/-- The address a request looks up. -/
def StoreRequest.ip : StoreRequest → Option NfsIpaddr
  | addipentry ip | rmvipentry ip | inccounter ip _ _ | nfsGetcounterPerip ip => some ip
  | ipCounterShow _ => none

/-- A step that reads or writes one half of a vector. -/
inductive CountStep (s : Store) (c : Counting) (vector : NfsCounterVector) :
    CountStage → Store → StorePc → Prop where
  | readsNumber : CountStep s c vector .found s (.counting c (.numberRead vector.number))
  | writesNumber (number : UInt64) : CountStep s c vector (.numberRead number)
      (s.setSlot c.entry c.cpu c.typeidx.toNat { vector with number := number + 1 })
      (.counting c .numberWritten)
  | readsBytes : CountStep s c vector .numberWritten s (.counting c (.bytesRead vector.bytes))
  | writesBytes (bytes : UInt64) : CountStep s c vector (.bytesRead bytes)
      (s.setSlot c.entry c.cpu c.typeidx.toNat { vector with bytes := bytes + c.bytes })
      (.looked c.cpu (.inccounter c.ip c.typeidx c.bytes) true)

/-- One step of a thread, on the store and the thread. -/
inductive StoreTook (maxtype : UInt8) (ncpu : ℕ) (s : Store) : StorePc → Store → StorePc → Prop where
  | stays (pc : StorePc) : StoreTook maxtype ncpu s pc s pc
  | starts (r : StoreRequest) : StoreTook maxtype ncpu s .idle s (.called r)
  | declines (ip : NfsIpaddr) (ipcounterid : UInt32) :
      StoreTook maxtype ncpu s (.called (.addipentry ip)) { s with ipcounterid := ipcounterid }
        (.returned (.addipentry ip) false)
  | creates (ip : NfsIpaddr) (new : ℕ) (name : List Char) (ipcounterid : UInt32) :
      ip.len ≠ 0 → s.entries new = none → s.files name = none →
      StoreTook maxtype ncpu s (.called (.addipentry ip))
        { s with
          ipcounterid := ipcounterid
          entries := Function.update s.entries new
            (some ⟨⟨NfsIpaddr.zero, fun _ => List.replicate maxtype.toNat ⟨0, 0⟩⟩, name⟩)
          files := Function.update s.files name (some new) }
        (.created ip new)
  | fills (ip : NfsIpaddr) (new : ℕ) (entry : NamedEntry) : s.entries new = some entry →
      StoreTook maxtype ncpu s (.created ip new)
        { s with
          entries := Function.update s.entries new (some { entry with ip := storedIp ip }) }
        (.filled ip new)
  | locksWrite (cpu : ℕ) (lock : RwLock) {pc pc' : StorePc} : WaitsToWrite cpu pc pc' →
      s.irqsOff cpu = false → s.iptreelock.writeLock = some lock →
      StoreTook maxtype ncpu s pc
        { s with iptreelock := lock, irqsOff := Function.update s.irqsOff cpu true } pc'
  | refuses (cpu : ℕ) (ip : NfsIpaddr) (new : ℕ) : (find (s.steer ip) s.iptree).isSome →
      StoreTook maxtype ncpu s (.adding cpu ip new) s
        (.changed cpu (.addipentry ip) (some new) false)
  | links (cpu : ℕ) (ip : NfsIpaddr) (new : ℕ) (linked : BinaryTree ℕ) (rebalance : Rebalance ℕ) :
      link (s.steer ip) new s.iptree = some linked →
      StoreTook maxtype ncpu s (.adding cpu ip new)
        { s with iptree := rebalance.apply linked, ipnumber := s.ipnumber + 1 }
        (.changed cpu (.addipentry ip) none true)
  | misses (cpu : ℕ) (ip : NfsIpaddr) : find (s.steer ip) s.iptree = none →
      StoreTook maxtype ncpu s (.removing cpu ip) s (.changed cpu (.rmvipentry ip) none false)
  | erases (cpu : ℕ) (ip : NfsIpaddr) (p : ℕ) (rebalance : Rebalance ℕ) :
      find (s.steer ip) s.iptree = some p →
      StoreTook maxtype ncpu s (.removing cpu ip)
        { s with
          iptree := rebalance.apply (erase (s.steer ip) s.iptree)
          ipnumber := s.ipnumber - 1 }
        (.changed cpu (.rmvipentry ip) (some p) true)
  | unlocksWrite (cpu : ℕ) (r : StoreRequest) (gone : Option ℕ) (ret : Bool) :
      StoreTook maxtype ncpu s (.changed cpu r gone ret) (s.writeUnlockIrqrestore cpu)
        (match gone with
          | none => .returned r ret
          | some p => .deleting r p .unlink ret)
  | unlinks (r : StoreRequest) (p q : ℕ) (ret : Bool) (entry : NamedEntry) :
      s.entries p = some entry → s.files entry.name = some q →
      StoreTook maxtype ncpu s (.deleting r p .unlink ret)
        { s with files := Function.update s.files entry.name none } (.deleting r p (.drain q) ret)
  | lacksFile (r : StoreRequest) (p : ℕ) (ret : Bool) (entry : NamedEntry) :
      s.entries p = some entry → s.files entry.name = none →
      StoreTook maxtype ncpu s (.deleting r p .unlink ret) s (.deleting r p .free ret)
  | drains (r : StoreRequest) (p q : ℕ) (ret : Bool) : s.users q = 0 →
      StoreTook maxtype ncpu s (.deleting r p (.drain q) ret) s (.deleting r p .free ret)
  | frees (r : StoreRequest) (p : ℕ) (ret : Bool) (entry : NamedEntry) :
      s.entries p = some entry →
      StoreTook maxtype ncpu s (.deleting r p .free ret)
        { s with entries := Function.update s.entries p none } (.returned r ret)
  | locksRead (cpu : ℕ) (lock : RwLock) {pc pc' : StorePc} : WaitsToRead cpu pc pc' →
      s.irqsOff cpu = false → s.iptreelock.readLock = some lock →
      StoreTook maxtype ncpu s pc
        { s with iptreelock := lock, irqsOff := Function.update s.irqsOff cpu true } pc'
  | lacks (cpu : ℕ) (ip : NfsIpaddr) (r : StoreRequest) : r.ip = some ip →
      find (s.steer ip) s.iptree = none →
      StoreTook maxtype ncpu s (.looking cpu r) s (.looked cpu r false)
  | finds (cpu p : ℕ) (ip : NfsIpaddr) {r : StoreRequest} {pc' : StorePc} :
      Finds ncpu maxtype cpu p ip r pc' → find (s.steer ip) s.iptree = some p →
      StoreTook maxtype ncpu s (.looking cpu r) s pc'
  | counts (c : Counting) (vector : NfsCounterVector) {stage : CountStage} {s' : Store}
      {pc' : StorePc} : s.slot c.entry c.cpu c.typeidx.toNat = some vector →
      CountStep s c vector stage s' pc' → StoreTook maxtype ncpu s (.counting c stage) s' pc'
  | sums (cpu : ℕ) (ip : NfsIpaddr) (p : ℕ) (place : ℕ × ℕ) (left : List (ℕ × ℕ)) :
      StoreTook maxtype ncpu s (.summing cpu ip p (place :: left)) s (.summing cpu ip p left)
  | summed (cpu : ℕ) (ip : NfsIpaddr) (p : ℕ) :
      StoreTook maxtype ncpu s (.summing cpu ip p []) s (.looked cpu (.nfsGetcounterPerip ip) true)
  | unlocksRead (cpu : ℕ) (r : StoreRequest) (ret : Bool) :
      StoreTook maxtype ncpu s (.looked cpu r ret) (s.readUnlockIrqrestore cpu) (.returned r ret)
  | noFile (name : List Char) :
      StoreTook maxtype ncpu s (.called (.ipCounterShow name)) s
        (.returned (.ipCounterShow name) false)
  | opens (name : List Char) (p : ℕ) : s.files name = some p →
      StoreTook maxtype ncpu s (.called (.ipCounterShow name))
        { s with users := Function.update s.users p (s.users p + 1) }
        (.showing name p (slots ncpu maxtype ++ slots ncpu maxtype))
  | prints (name : List Char) (p : ℕ) (place : ℕ × ℕ) (left : List (ℕ × ℕ)) :
      StoreTook maxtype ncpu s (.showing name p (place :: left)) s (.showing name p left)
  | closes (name : List Char) (p : ℕ) :
      StoreTook maxtype ncpu s (.showing name p [])
        { s with users := Function.update s.users p (s.users p - 1) }
        (.returned (.ipCounterShow name) true)
  | returns (r : StoreRequest) (ret : Bool) : StoreTook maxtype ncpu s (.returned r ret) s .idle

variable {maxtype : UInt8} {ncpu : ℕ} {s : Store} {pc : StorePc}

/-- `create` either gives up, with a number spent perhaps, or makes an entry and its file. -/
theorem create_cases (o : Outcome) :
    (∃ ipcounterid, s.create maxtype o = (none, { s with ipcounterid := ipcounterid })) ∨
      ∃ new name ipcounterid, s.entries new = none ∧ s.files name = none ∧
        s.create maxtype o = (some new,
          { s with
            ipcounterid := ipcounterid
            entries := Function.update s.entries new
              (some ⟨⟨NfsIpaddr.zero, fun _ => List.replicate maxtype.toNat ⟨0, 0⟩⟩, name⟩)
            files := Function.update s.files name (some new) }) := by
  cases offered : o.kzalloc with
  | none =>
      left
      exact ⟨s.ipcounterid, by rw [Store.create, offered]⟩
  | some new =>
      cases used : s.entries new with
      | some entry =>
          left
          exact ⟨s.ipcounterid, by simp [Store.create, offered, used]⟩
      | none =>
          cases percpu : o.allocPercpu with
          | false =>
              left
              exact ⟨s.ipcounterid, by simp [Store.create, offered, used, percpu]⟩
          | true =>
              by_cases made : o.procCreateData = true ∧ s.files (entryName s.ipcounterid o.cpu) = none
              · right
                refine ⟨new, _, s.ipcounterid + 1, used, made.2, ?_⟩
                simp [Store.create, offered, used, percpu, made]
              · left
                refine ⟨s.ipcounterid + 1, ?_⟩
                simp [Store.create, offered, used, percpu, made]

end Linguafranca.Nfstat
