import Linguafranca.Ipshark2.Requests

/-!
# The device file of ipshark2

`ips_ioctl` looks at the type and the direction in the command word and then hands over to
`ips_config`, `ips_fetch` or `ips_freemem`; the case of `IPS_FREE_MEM` has no `break`. Opening
and releasing the device do nothing, and unloading the module gives up the entry in `/proc`,
the character device and its number. A call that runs into NULL returns nothing.
-/

namespace Linguafranca.Ipshark2

open Run
open Ipshark (Packet)

/-- The error number `EIO`. -/
def eio : Int := 5

/-- The error number `EFAULT`. -/
def efault : Int := 14

/-! ## Command words -/

/-- The macro `_IOC`. -/
def ioc (dir type nr size : ℕ) : UInt32 :=
  UInt32.ofNat (dir * 2 ^ 30 + size * 2 ^ 16 + type * 2 ^ 8 + nr)

/-- The direction in a command, `_IOC_DIR`. -/
def iocDir (cmd : UInt32) : ℕ :=
  cmd.toNat / 2 ^ 30 % 2 ^ 2

/-- The magic number in a command, `_IOC_TYPE`. -/
def iocType (cmd : UInt32) : ℕ :=
  cmd.toNat / 2 ^ 8 % 2 ^ 8

/-- The letter s. -/
def ipsCmdMagic : ℕ := 115

/-- With the size of `struct ips_config`. -/
def ipsCmdConfig : UInt32 := ioc 1 ipsCmdMagic 0 40

/-- The command `IPS_FETCH_INFO`. -/
def ipsCmdFetchInfo : UInt32 := ioc 0 ipsCmdMagic 1 0

/-- With the size of `struct ips_recycle_array`. -/
def ipsCmdFreeMem : UInt32 := ioc 1 ipsCmdMagic 2 258

/-- The command word, the outcome of `access_ok` and, for each of the commands, what the user
passes and what the kernel answers. -/
structure IpsRequest where
  cmd : UInt32
  accessOk : Bool
  config : ConfigArgs
  remaining : ℕ
  interrupted : Bool
  freemem : FreememArgs

section

variable (jhash : List UInt8 → UInt32 → UInt32)

/-- `ips_ioctl`: the checks and the switch; `none` is an oops. -/
def ipsIoctl (request : IpsRequest) (s : Module) : Option Int × Module :=
  if iocType request.cmd ≠ ipsCmdMagic then (some (-eio), s)
  else if iocDir request.cmd ≠ 0 ∧ !request.accessOk then (some (-efault), s)
  else if request.cmd = ipsCmdConfig then
    let result := ipsConfig jhash request.config s
    (result.ret, result.state)
  else if request.cmd = ipsCmdFetchInfo then
    let fetched := ipsFetch request.remaining request.interrupted s
    (if fetched.1 && s.pool.isNone then none else some fetched.2.1, fetched.2.2)
  else if request.cmd = ipsCmdFreeMem then
    -- whatever `ips_freemem` returns, the default case follows
    let freed := ipsFreemem request.freemem s
    (if !freed.1.2.isEmpty && s.pool.isNone then none else some (-efault), freed.2.2)
  else (some (-efault), s)

/-! ## Calls in any order -/

/-- A call on the device, or a packet. -/
inductive DeviceEvent where
  | ipsOpen
  | ipsIoctl (request : IpsRequest)
  | ipsRelease
  | packet (p : Packet)

/-- The module after an event. -/
def deviceStep (s : Module) : DeviceEvent → Module
  | .ipsOpen => s
  | .ipsIoctl request => (ipsIoctl jhash request s).2
  | .ipsRelease => s
  | .packet p => arrive jhash p s

end

/-! ## Loading and unloading -/

/-- What the kernel holds for the module, and its static variables. -/
structure Loaded where
  region : Bool
  cdev : Bool
  proc : Bool
  statics : Module

/-- `ips_clean`: what `ips_init` registered is given up. -/
def ipsClean (m : Loaded) : Loaded :=
  { m with proc := false, cdev := false, region := false }

/-- `ips_exit`: the module is unloaded. -/
def ipsExit (m : Loaded) : Loaded :=
  ipsClean m

/-- Loading, with the errors of `alloc_chrdev_region`, `cdev_add` and `ips_create_proc`. -/
def ipsInit (regionErr cdevErr procErr : Int) : Int × Loaded :=
  if regionErr < 0 then (regionErr, ⟨false, false, false, Module.initial⟩)
  else if cdevErr ≠ 0 then (cdevErr, ⟨false, false, false, Module.initial⟩)
  else if procErr ≠ 0 then (procErr, ipsClean ⟨true, true, false, Module.initial⟩)
  else (0, ⟨true, true, true, Module.initial⟩)

/-! ## What a call comes down to -/

section

variable {jhash : List UInt8 → UInt32 → UInt32} {request : IpsRequest} {s : Module}

/-- The call gets as far as the switch. -/
structure IpsRequest.Passes (request : IpsRequest) : Prop where
  magic : iocType request.cmd = ipsCmdMagic
  access : iocDir request.cmd ≠ 0 → request.accessOk = true

instance (request : IpsRequest) : Decidable request.Passes :=
  decidable_of_iff (iocType request.cmd = ipsCmdMagic ∧
      (iocDir request.cmd ≠ 0 → request.accessOk = true))
    ⟨fun both => ⟨both.1, both.2⟩, fun passes => ⟨passes.magic, passes.access⟩⟩

/-- What a call of `ips_ioctl` does. -/
inductive Calls (jhash : List UInt8 → UInt32 → UInt32) (request : IpsRequest) (s : Module) :
    Option Int × Module → Prop where
  | turnedDown (err : Int) : ¬request.Passes → err < 0 → Calls jhash request s (some err, s)
  | config : request.Passes → request.cmd = ipsCmdConfig →
      Calls jhash request s
        ((ipsConfig jhash request.config s).ret, (ipsConfig jhash request.config s).state)
  | fetch (ret : Option Int) : request.Passes → request.cmd = ipsCmdFetchInfo →
      (∀ err, ret = some err → err = (ipsFetch request.remaining request.interrupted s).2.1) →
      Calls jhash request s (ret, (ipsFetch request.remaining request.interrupted s).2.2)
  | free (ret : Option Int) : request.Passes → request.cmd = ipsCmdFreeMem →
      (s.pool.isSome → ret = some (-efault)) →
      Calls jhash request s (ret, (ipsFreemem request.freemem s).2.2)
  | unknown : request.cmd ≠ ipsCmdConfig → request.cmd ≠ ipsCmdFreeMem →
      Calls jhash request s (some (-efault), s)

theorem calls_ipsIoctl : Calls jhash request s (ipsIoctl jhash request s) := by
  unfold ipsIoctl
  split
  · next magic => exact .turnedDown _ (fun passes => magic passes.magic) (by simp [eio])
  · next magic =>
      split
      · next access =>
          apply Calls.turnedDown
          · intro passes
            simp [passes.access access.1] at access
          · simp [efault]
      · next access =>
          have passes : request.Passes := by
            refine ⟨not_not.mp magic, ?_⟩
            intro direction
            simpa [direction] using access
          split
          · next config => exact .config passes config
          · next config =>
              split
              · next fetch =>
                  apply Calls.fetch _ passes fetch
                  intro err returned
                  split at returned
                  · cases returned
                  · exact (Option.some.inj returned).symm
              · split
                · next free =>
                    apply Calls.free _ passes free
                    intro pool
                    rw [if_neg]
                    simp [Option.isNone_iff_eq_none, Option.isSome_iff_ne_none.mp pool]
                · next free => exact .unknown config free

theorem deviceStep_cases (jhash : List UInt8 → UInt32 → UInt32) (s : Module)
    (event : DeviceEvent) :
    deviceStep jhash s event = s ∨ ∃ step, deviceStep jhash s event = moduleStep jhash s step := by
  cases event with
  | ipsOpen => exact Or.inl rfl
  | ipsRelease => exact Or.inl rfl
  | packet p => exact Or.inr ⟨.packet p, rfl⟩
  | ipsIoctl request =>
      have calls : Calls jhash request s (ipsIoctl jhash request s) := calls_ipsIoctl
      simp only [deviceStep]
      generalize ipsIoctl jhash request s = result at calls ⊢
      cases calls with
      | turnedDown err refused negative => exact Or.inl rfl
      | config passes cmd => exact Or.inr ⟨.config request.config, rfl⟩
      | fetch ret passes cmd returned =>
          exact Or.inr ⟨.fetch request.remaining request.interrupted, rfl⟩
      | free ret passes cmd returned => exact Or.inr ⟨.freemem request.freemem, rfl⟩
      | unknown config free => exact Or.inl rfl

/-- What every step of the module keeps holds after any events at the device. -/
theorem device_invariant {property : Module → Prop}
    (kept : ∀ s event, property s → property (moduleStep jhash s event))
    (events : List DeviceEvent) (initially : property s) :
    property (run (deviceStep jhash) s events) := by
  apply invariant_of_step ?_ events initially
  intro s event holds
  rcases deviceStep_cases jhash s event with same | ⟨step, stepped⟩
  · rwa [same]
  · rw [stepped]
    exact kept s step holds

end

/-! ## One client -/

/-- A request for two indices for the one CPU and no name to exclude. -/
def noNames : ConfigArgs :=
  let user : Memory := fun offset => if offset = 10 then 2 else if offset = 28 then 1 else 0
  { oneName with user := user, behind := user }

/-- A packet without ports that came in by `eth0`. -/
def plainPacket : Packet where
  ipv6 := false
  cpu := 0
  skb := ⟨some ⟨4, 1, Bytes.zero 4, Bytes.zero 4⟩, none, none, none, none, 28⟩
  inDev := some ⟨eth0⟩
  outDev := none

/-- A request that configures. -/
def IpsRequest.ofConfig (args : ConfigArgs) : IpsRequest :=
  ⟨ipsCmdConfig, true, args, 0, false, ⟨0, 0, fun _ => 0⟩⟩

/-- A request that fetches. -/
def fetchInfo : IpsRequest :=
  { IpsRequest.ofConfig noNames with cmd := ipsCmdFetchInfo }

/-- The index 0 is given back. -/
def freeFirst : IpsRequest :=
  { IpsRequest.ofConfig noNames with cmd := ipsCmdFreeMem, freemem := ⟨0, 1, fun _ => 0⟩ }

/-- A client configures the module and fetches the index of one packet. -/
def oneFetched : List DeviceEvent :=
  [.ipsOpen, .ipsIoctl (.ofConfig noNames), .packet plainPacket, .ipsIoctl fetchInfo]

end Linguafranca.Ipshark2
