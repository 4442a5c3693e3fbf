import Linguafranca.Ipshark2.Records
import Linguafranca.Support.Interleaving

/-!
# The area shared by the hooks and the client

`ip_queue_put`, `ip_queue_move2dma` and `ip_queue_recycle` one atomic step at a time. Any
number of packets are put, each on a CPU it has for itself until it leaves with
`local_bh_enable`; one client fetches indices and gives them back. Between two steps of one
of them the others may take theirs, so a record can be seen while it is being written. The
calls of the fifos are atomic.

The client is thread 0; it keeps the indices it was handed and has not given back. The steps
of a fetch start after the wait, which leaves the area alone. The statistics are left out.
A thread that uses an element or a place of `idx_array` that is not there ends in `fault`.
-/

namespace Linguafranca.Ipshark2

open Run Interleaving

/-- The pool while packets and a client use it. -/
structure SharedArea where
  pool : IpQueue
  /-- The CPUs on which a packet is being put. -/
  putting : ℕ → Bool

/-- How far the client has come in its request. -/
inductive ClientTask where
  | user
  /-- `ip_queue_move2dma` at a CPU, with the indices copied so far. -/
  | moving (cpu : ℕ) (copied : List ℕ) (num : Int)
  | moved (copied : List ℕ)
  /-- `ip_queue_recycle` at the head of its loop. -/
  | taking (left : List ℕ)
  /-- The scan over the CPUs for the range of the index. -/
  | scanning (addr : ℕ) (handled : Bool) (cpu : ℕ) (left : List ℕ)
  | releasing (addr : ℕ) (handled : Bool) (cpu : ℕ) (left : List ℕ)
  | giving (addr : ℕ) (handled : Bool) (cpu : ℕ) (left : List ℕ)

/-- How far a put or the client has come. -/
inductive AreaPc where
  | resting
  | arrived (src : IpKeyInfo)
  | popping (cpu : ℕ) (src : IpKeyInfo)
  | popped (cpu : ℕ) (src : IpKeyInfo) (s : ℕ)
  /-- `memcpy` has not begun, or is half way. -/
  | copying (cpu : ℕ) (src : IpKeyInfo) (s : ℕ) (half : Bool)
  | counting (cpu : ℕ) (src : IpKeyInfo) (s : ℕ)
  | marking (cpu : ℕ) (src : IpKeyInfo) (s : ℕ)
  | queueing (cpu : ℕ) (src : IpKeyInfo) (s : ℕ)
  /-- The ready fifo had no room. -/
  | refused (cpu : ℕ) (s : ℕ)
  | alarming (cpu : ℕ)
  | leaving (cpu : ℕ)
  | client (hand : List ℕ) (task : ClientTask)
  | fault

/-- A put or a request begins, or a thread goes on. -/
inductive AreaAct where
  | put (src : IpKeyInfo)
  | fetch
  | free (idlist : List ℕ)
  /-- The CPU a packet runs on, and what a half written record looks like. -/
  | next (cpu : ℕ) (torn : IpKeyInfo)

namespace SharedArea

/-- The queues of one CPU after a change. -/
def setQueue (a : SharedArea) (cpu : ℕ) (c : QueueData) : SharedArea :=
  { a with pool := { a.pool with qptr := a.pool.qptr.set cpu c } }

/-- One element after a change. -/
def setElem (a : SharedArea) (s : ℕ) (wrap : IpKeyInfoWrap) : SharedArea :=
  { a with pool :=
    { a.pool with m := { a.pool.m with elem := Function.update a.pool.m.elem s wrap } } }

/-- A CPU starts or ends a put. -/
def setPutting (a : SharedArea) (cpu : ℕ) (on : Bool) : SharedArea :=
  { a with putting := Function.update a.putting cpu on }

/-- The start of `idx_array`, as far as it was written. -/
def setIdxArray (a : SharedArea) (copied : List ℕ) : SharedArea :=
  { a with pool :=
    { a.pool with m :=
      { a.pool.m with idxArray := copied ++ a.pool.m.idxArray.drop copied.length } } }

/-- The length of the delivery is written. -/
def setIdxNum (a : SharedArea) (num : ℕ) : SharedArea :=
  { a with pool := { a.pool with m := { a.pool.m with idxNum := num } } }

/-- The element an index stands for, where the area has it. -/
def num2addr (a : SharedArea) (s : ℕ) : Option IpKeyInfoWrap :=
  if s < a.pool.m.ipKeyInfoTotalSize then some (a.pool.m.elem s) else none

end SharedArea

/-- The content of `idlist[i]` during the scan. -/
def idlistCell (addr : ℕ) (handled : Bool) : ℕ :=
  if handled then 0 else addr

/-- The next step of `ip_queue_put`. -/
def putNext (a : SharedArea) (at_cpu : ℕ) (torn : IpKeyInfo) (pc : AreaPc) :
    SharedArea × AreaPc :=
  match pc with
  | .arrived src =>
      if a.putting at_cpu ∨ a.pool.qptr.length ≤ at_cpu then (a, pc)
      else (a.setPutting at_cpu true, .popping at_cpu src)
  | .popping cpu src =>
      match a.pool.qptr[cpu]? with
      | none => (a, .fault)
      | some c =>
          match c.idle.get with
          | none => (a, .leaving cpu)
          | some (s, left) => (a.setQueue cpu { c with idle := left }, .popped cpu src s)
  | .popped cpu src s =>
      match a.num2addr s with
      | none => (a, .fault)
      | some addr => (a, if addr.state = .inuse then .popping cpu src else .copying cpu src s false)
  | .copying cpu src s half =>
      match a.num2addr s with
      | none => (a, .fault)
      | some addr =>
          if half then (a.setElem s { addr with info := src }, .counting cpu src s)
          else (a.setElem s { addr with info := torn }, .copying cpu src s true)
  | .counting cpu src s =>
      match a.num2addr s with
      | none => (a, .fault)
      | some addr => (a.setElem s { addr with times := addr.times + 1 }, .marking cpu src s)
  | .marking cpu src s =>
      match a.num2addr s with
      | none => (a, .fault)
      | some addr => (a.setElem s { addr with state := .inuse }, .queueing cpu src s)
  | .queueing cpu _ s =>
      match a.pool.qptr[cpu]? with
      | none => (a, .fault)
      | some c =>
          if (c.ready.put s).1 then
            (a.setQueue cpu { c with ready := (c.ready.put s).2 }, .alarming cpu)
          else (a, .refused cpu s)
  | .refused cpu s =>
      match a.pool.qptr[cpu]? with
      | none => (a, .fault)
      | some c => (a.setQueue cpu { c with idle := (c.idle.put s).2 }, .alarming cpu)
  | .alarming cpu =>
      match a.pool.qptr[cpu]? with
      | none => (a, .fault)
      | some c => (a.setQueue cpu c.updateAlarm, .leaving cpu)
  | .leaving cpu => (a.setPutting cpu false, .resting)
  | pc => (a, pc)

/-- The next step of the client, with the indices it holds afterwards. -/
def clientNext (a : SharedArea) (hand : List ℕ) : ClientTask → SharedArea × AreaPc
  | .user => (a, .client hand .user)
  | .moving cpu copied num =>
      match a.pool.qptr[cpu]? with
      | none => (a, .client hand (.moved copied))
      | some c =>
          if c.ready.items = [] then (a, .client hand (.moving (cpu + 1) copied num))
          else
            let out := c.ready.out num.toNat
            let copied := copied ++ out.1
            if ipsIdxArraySize < copied.length then (a, .fault)
            else
              let a := (a.setQueue cpu { c with ready := out.2 }).setIdxArray copied
              let num := num - copied.length
              if num ≤ 0 then (a, .client hand (.moved copied))
              else (a, .client hand (.moving (cpu + 1) copied num))
  | .moved copied =>
      let a := a.setIdxNum copied.length
      (a, .client (hand ++ a.pool.m.delivered) .user)
  | .taking [] => (a, .client hand .user)
  | .taking (addr :: left) =>
      match a.num2addr addr with
      | none => (a, .fault)
      | some wrap =>
          if wrap.state ≠ .inuse then (a, .client hand (.taking left))
          else (a, .client hand (.scanning addr false 0 left))
  | .scanning addr handled cpu left =>
      match a.pool.qptr[cpu]? with
      | none => (a, .client hand (.taking left))
      | some c =>
          if c.InRange (idlistCell addr handled) then
            (a, .client hand (.releasing addr handled cpu left))
          else (a, .client hand (.scanning addr handled (cpu + 1) left))
  | .releasing addr handled cpu left =>
      match a.num2addr addr with
      | none => (a, .fault)
      | some wrap =>
          (a.setElem addr { wrap with state := .used }, .client hand (.giving addr handled cpu left))
  | .giving addr handled cpu left =>
      match a.pool.qptr[cpu]? with
      | none => (a, .fault)
      | some c =>
          (a.setQueue cpu { c with idle := (c.idle.put (idlistCell addr handled)).2 },
            .client hand (.scanning addr true (cpu + 1) left))

/-- A step of one thread. -/
def areaAct (a : SharedArea) (pc : AreaPc) (act : AreaAct) : SharedArea × AreaPc :=
  match act, pc with
  | .put src, .resting => (a, .arrived src)
  | .fetch, .client hand .user => (a, .client hand (.moving 0 [] ipsIdxArraySize))
  | .free idlist, .client hand .user => (a, .client (hand.diff idlist) (.taking idlist))
  | .next _ _, .client hand task => clientNext a hand task
  | .next cpu torn, pc => putNext a cpu torn pc
  | _, pc => (a, pc)

/-- The puts and the client over one pool. -/
abbrev Areas : Type :=
  Threads SharedArea AreaPc

/-- One step of one of the threads. -/
abbrev areaStep : Areas → ℕ × AreaAct → Areas :=
  step areaAct

/-- The pool after it was created; the client holds nothing yet. -/
def sharedArea (q : IpQueue) : Areas where
  shared := ⟨q, fun _ => false⟩
  pc := fun t => if t = 0 then .client [] .user else .resting

end Linguafranca.Ipshark2
