import Linguafranca.Ipshark.Devset
import Linguafranca.Ipshark.IpQueue

/-!
# The device of ipshark

`core.c` guards the device by the state word `dev_state`, which `cas` and `set` change under
a semaphore. `set_namelist` and `fetch_info` are a `cas`, a body and, where they leave again,
a `set`. What the user asks for and the outcomes of the copies, checks and allocations are
arguments of the bodies; `copy_from_user` and `copy_to_user` give the number of bytes left.
-/

namespace Linguafranca.Ipshark

/-- The state word of the device. -/
inductive DevState where
  | close
  | opened
  | nameSet
  | run
deriving DecidableEq

/-- The static variables of the module; `arr` is the array in `fetch_info`. -/
structure Device where
  devState : DevState
  devset : Devset
  ipQueue : IpQueue
  hooks : Bool
  arr : ℕ → IpKeyInfo

/-- The word is changed if it has the expected value; anything else is `-EINVAL`. -/
def cas (expected new : DevState) (dev : Device) : Int × Device :=
  if dev.devState = expected then (0, { dev with devState := new }) else (-einval, dev)

/-- The word is overwritten. -/
def set (new : DevState) (dev : Device) : Device :=
  { dev with devState := new }

/-- A count stored in an `int`. -/
def toInt (count : ℕ) : Int :=
  (Int32.ofNat count).toInt

/-! ## Opening and closing -/

/-- The outcomes of the allocations in `ips_open`. -/
structure OpenArgs where
  kmalloc : Bool
  allocPercpu : Bool
  vmalloc : List Bool

/-- `ips_open`: behind the state word, the device set and then the queue are set up. -/
def ipsOpen (args : OpenArgs) (dev : Device) : Int × Device :=
  let entered := cas .close .opened dev
  if entered.1 ≠ 0 then entered
  else
    let devset := devsetInit args.kmalloc entered.2.devset
    let dev := { entered.2 with devset := devset.2 }
    if devset.1 ≠ 0 then (devset.1, dev)
    else
      let queue := ipQueueInit args.allocPercpu args.vmalloc dev.ipQueue
      let dev := { dev with ipQueue := queue.2 }
      if queue.1 ≠ 0 then (queue.1, { dev with devset := devsetExit dev.devset })
      else (0, { dev with hooks := true })

/-- All allocations of `ips_open` succeed. -/
def OpenArgs.Allocated (args : OpenArgs) : Prop :=
  args.kmalloc = true ∧ args.allocPercpu = true ∧ args.vmalloc.all id = true

instance (args : OpenArgs) : Decidable args.Allocated :=
  inferInstanceAs (Decidable (_ ∧ _ ∧ _))

/-- The queue with an empty fifo for each possible CPU. -/
def OpenArgs.queue (args : OpenArgs) (q : IpQueue) : IpQueue :=
  { q with ipFifo := some (args.vmalloc.map fun _ => ⟨Kfifo.alloc ipFifoSize, false⟩) }

/-- What an `ips_open` does. -/
inductive Opens (args : OpenArgs) (dev : Device) : Int × Device → Prop where
  | refused : dev.devState ≠ .close → Opens args dev (-einval, dev)
  | noTable : dev.devState = .close → args.kmalloc = false →
      Opens args dev (-enomem, { dev with
        devState := .opened
        devset := { dev.devset with devHashtable := none } })
  | noQueue (queue : IpQueue) : dev.devState = .close → ¬args.Allocated → queue.ipFifo = none →
      Opens args dev (-enomem, { dev with
        devState := .opened
        devset := ⟨none, ipsNone⟩
        ipQueue := queue })
  | opens : dev.devState = .close → args.Allocated →
      Opens args dev (0, { dev with
        devState := .opened
        devset := { dev.devset with devHashtable := some fun _ => [] }
        ipQueue := args.queue dev.ipQueue
        hooks := true })

theorem opens_ipsOpen (args : OpenArgs) (dev : Device) : Opens args dev (ipsOpen args dev) := by
  simp only [ipsOpen, cas]
  by_cases free : dev.devState = .close
  · simp only [free, if_true, ne_eq, not_true_eq_false, if_false]
    cases table : args.kmalloc with
    | false =>
        simp only [devsetInit]
        exact .noTable free table
    | true =>
        simp only [devsetInit, if_true, not_true_eq_false, if_false, ipQueueInit]
        cases percpu : args.allocPercpu with
        | false => exact .noQueue _ free (by simp [OpenArgs.Allocated, percpu]) rfl
        | true =>
            cases fifos : args.vmalloc.all id with
            | false => exact .noQueue _ free (by simp [OpenArgs.Allocated, fifos]) rfl
            | true => exact .opens free ⟨table, percpu, fifos⟩
  · simp only [free, if_false, ne_eq, einval]
    exact .refused free

/-- `ips_release`: the hooks, the queue and the device set are given up. -/
def ipsRelease (dev : Device) : Int × Device :=
  (0, { dev with
    devState := .close
    hooks := false
    ipQueue := ipQueueExit dev.ipQueue
    devset := devsetExit dev.devset })

/-! ## Configuring -/

/-- The `names` are those in the allocated array after the copy. -/
structure SetArgs where
  copyList : ℕ
  whiteBlack : Int
  devnum : Int
  accessOk : Bool
  vmalloc : Bool
  copyNames : ℕ
  names : ℕ → Devname
  kmalloc : ℕ → Bool

/-- The list of names of the request. -/
def SetArgs.list (args : SetArgs) : DevnameList :=
  ⟨args.whiteBlack, args.devnum, some args.names⟩

section

variable (jhash : List UInt8 → UInt32 → UInt32)

/-- `set_namelist` between the changes of the state word. -/
def setNamelistBody (args : SetArgs) (dev : Device) : Int × Device :=
  let err := toInt args.copyList
  if err ≠ 0 then (err, dev)
  else if args.devnum ≤ 0 then (-einval, dev)
  else if !args.accessOk then (1, dev)
  else if !args.vmalloc then (-efault, dev)
  else
    let err := toInt args.copyNames
    if err ≠ 0 then (err, dev)
    else
      let added := devsetAdd jhash args.kmalloc (some args.list) dev.devset
      (added.1, { dev with devset := added.2 })

/-- `set_namelist`, whose failure puts the state word back. -/
def setNamelist (args : SetArgs) (dev : Device) : Int × Device :=
  let entered := cas .opened .nameSet dev
  if entered.1 ≠ 0 then entered
  else
    let done := setNamelistBody jhash args entered.2
    if done.1 ≠ 0 then (done.1, set .opened done.2) else (0, done.2)

end

/-! ## Fetching -/

/-- What `fetch_info` is called with, and the outcomes of what it calls. -/
structure FetchArgs where
  copySet : ℕ
  n : UInt32
  buf : Bool
  waited : Int
  accessOk : Bool
  copyArray : ℕ
  copyBack : ℕ

/-- `fetch_info` between the changes of the state word. -/
def fetchInfoBody (args : FetchArgs) (dev : Device) : Int × Device :=
  let err := toInt args.copySet
  if err ≠ 0 then (err, dev)
  else if !args.buf ∨ args.n = 0 ∨ 1024 < args.n then (-einval, dev)
  else if ipQueueWait args.waited dev.ipQueue ≤ 0 then (-etime, dev)
  else if !args.accessOk then (1, dev)
  else
    let got := ipQueueGet args.n dev.arr dev.ipQueue
    let dev := { dev with arr := got.2.1, ipQueue := got.2.2 }
    let err := toInt args.copyArray
    if err ≠ 0 then (err, dev) else (toInt args.copyBack, dev)

/-- `fetch_info`, which puts the state word back in any case. -/
def fetchInfo (args : FetchArgs) (dev : Device) : Int × Device :=
  let entered := cas .nameSet .run dev
  if entered.1 ≠ 0 then entered
  else
    let done := fetchInfoBody args entered.2
    (done.1, set .nameSet done.2)

end Linguafranca.Ipshark
