import Linguafranca.Ipshark.Core

/-!
# The framework over the device

`framework.c` runs a thread that fetches records into buffers of its own and passes each full
buffer to a handler, and `ips_api.c` keeps the descriptor of the device. Buffers and threads go
by the number of their allocation or creation. What `malloc`, `open`, the requests to the
device and `pthread_create` answer is an argument; a `malloc` without memory ends the process.
-/

namespace Linguafranca.Ipshark

/-! ## The thread with several handlers -/

/-- The size of a record in bytes. -/
def sizeofIpKeyInfo : ℕ := 72

/-- The variables of `ips_frame_mt_run`, the sizes of the buffers allocated so far, and the
buffers passed to `handle`. -/
structure Reader where
  n : UInt32
  array : Option ℕ
  lastn : UInt64
  nextn : UInt64
  buffers : List ℕ
  handed : List ℕ

/-- The local variables when the thread starts. -/
def Reader.init : Reader :=
  ⟨0, none, 0, 16, [], []⟩

/-- From the head of the loop to the call of `ips_fetch`. -/
def Reader.ask (r : Reader) (malloc : Bool) : Option Reader :=
  if r.nextn ≠ 0 then
    let n := r.nextn.toUInt32
    if malloc then
      some
        { r with
          n := n
          array := some r.buffers.length
          lastn := n.toUInt64
          buffers := r.buffers ++ [n.toNat * sizeofIpKeyInfo] }
    else none
  else
    let n := r.lastn.toUInt32
    some { r with n := n, lastn := n.toUInt64 }

/-- What a fetch comes back with. -/
inductive FetchOutcome where
  /-- A timeout also clears `s.n`. -/
  | failed (cleared : Bool)
  | got (n : UInt32)

/-- The size of the next request after a fetch that returned `n` records. -/
def nextRequest (n : UInt32) (lastn : UInt64) : UInt64 :=
  let nextn :=
    if n.toUInt64 < lastn / 4 then lastn / 2
    else if n.toUInt64 = lastn then lastn * 2
    else n.toUInt64
  if nextn < 16 then 16 else nextn

/-- From the return of `ips_fetch` to the end of the loop. -/
def Reader.finish (asked : Reader) : FetchOutcome → Reader
  | .failed cleared => { asked with n := if cleared then 0 else asked.n, nextn := 0 }
  | .got n =>
      { asked with
        n := n
        nextn := nextRequest n asked.lastn
        handed := asked.handed ++ asked.array.toList }

/-- The outcomes of one turn of the loop. -/
structure Turn where
  malloc : Bool
  outcome : FetchOutcome

/-- One turn of the loop; there is no state once the process has ended. -/
def readerStep (state : Option Reader) (turn : Turn) : Option Reader :=
  (state.bind fun r => r.ask turn.malloc).map fun asked => asked.finish turn.outcome

/-! ## Starting and stopping -/

/-- The error number `ENOENT`. -/
def enoent : Int := 2

/-- The error number `ENXIO`. -/
def enxio : Int := 6

/-- The function that is run in the thread. -/
inductive RunFunction where
  | mt
  | ut
deriving DecidableEq

/-- A `pthread_create`, a `pthread_join` or the `close` of the device. -/
inductive FrameAct where
  | create (t : ℕ)
  | join (t : ℕ)
  | close
deriving DecidableEq

/-- The static variables of both files, and what was done so far. -/
structure Frame (Handler : Type*) where
  handle : Option Handler
  newthreadused : Bool
  function : Option RunFunction
  running : Bool
  tid : ℕ
  fd : Option ℕ
  acts : List FrameAct

variable {Handler : Type*}

/-- The static variables when the library is loaded. -/
def Frame.init : Frame Handler :=
  ⟨none, false, none, false, 0, none, []⟩

/-- The threads created so far have the numbers from one up to this. -/
def Frame.threads (f : Frame Handler) : ℕ :=
  f.acts.countP fun act => act matches .create _

/-- `ips_init`: the device is opened, unless it already is. -/
def ipsInit (opened : Option ℕ) (f : Frame Handler) : Int × Frame Handler :=
  match f.fd with
  | some _ => (-eexist, f)
  | none =>
      match opened with
      | none => (-enoent, f)
      | some nfd => (0, { f with fd := some nfd })

/-- `ips_exit`: an open device is closed. -/
def ipsExit (f : Frame Handler) : Frame Handler :=
  match f.fd with
  | none => f
  | some _ => { f with fd := none, acts := f.acts ++ [.close] }

/-- The answer of the request is an argument. -/
def ipsConfig (devnum : Int) (ioctl : Int) (f : Frame Handler) : Int :=
  if f.fd = none then -enxio else if devnum ≤ 0 then -einval else ioctl

/-- What `open`, the request and `pthread_create` answer. -/
structure StartArgs where
  opened : Option ℕ
  devnum : Int
  ioctl : Int
  created : Int

/-- `ips_frame_start`: the device is opened and configured, and the reader starts. -/
def ipsFrameStart (args : StartArgs) (f : Frame Handler) : Int × Frame Handler :=
  let initialised := ipsInit args.opened f
  if initialised.1 ≠ 0 then initialised
  else
    let f := initialised.2
    let err := ipsConfig args.devnum args.ioctl f
    if err ≠ 0 then (err, ipsExit { f with running := false })
    else
      let f := { f with running := true }
      if args.created ≠ 0 then (args.created, ipsExit { f with running := false })
      else
        let ntid := f.threads + 1
        (0, { f with tid := ntid, acts := f.acts ++ [.create ntid] })

/-- `ips_frame_stop`: the reader is told to stop and joined, and the device is closed. -/
def ipsFrameStop (f : Frame Handler) : Frame Handler :=
  let f := { f with running := false }
  ipsExit (if 0 < f.tid then { f with acts := f.acts ++ [.join f.tid] } else f)

/-- `ips_frame_register`: the handler is stored unless the reader runs. -/
def ipsFrameRegister (h : Handler) (newthread : Bool) (f : Frame Handler) : Frame Handler :=
  if f.running then f
  else
    { f with
      handle := some h
      newthreadused := newthread
      function := some (if newthread then .mt else .ut) }

/-- A call of the library. -/
inductive FrameCall (Handler : Type*) where
  | register (h : Handler) (newthread : Bool)
  | start (args : StartArgs)
  | stop

/-- The static variables after a call. -/
def frameStep (f : Frame Handler) : FrameCall Handler → Frame Handler
  | .register h newthread => ipsFrameRegister h newthread f
  | .start args => (ipsFrameStart args f).2
  | .stop => ipsFrameStop f

end Linguafranca.Ipshark
