import Linguafranca.Ips

/-!
# Shared declarations of ipshark

The constants and structures of `ips.h` and `intern.h`, and the error numbers in use.
-/

namespace Linguafranca.Ipshark

/-- The size of a device name. -/
def ifnamsiz : ℕ := 16

/-- The mode of a white list. -/
def ipsWhite : Int := 0

/-- The mode of a black list. -/
def ipsBlack : Int := 1

/-- The mode when no list is installed. -/
def ipsNone : Int := 2

/-- The error number `ENOEXEC`. -/
def enoexec : Int := 8

/-- The error number `ENOMEM`. -/
def enomem : Int := 12

/-- The error number `EFAULT`. -/
def efault : Int := 14

/-- The error number `EEXIST`. -/
def eexist : Int := 17

/-- The error number `EINVAL`. -/
def einval : Int := 22

/-- The error number `ETIME`. -/
def etime : Int := 62

/-- A name in the table, with its hash. -/
structure DevEntry where
  n : Devname
  hash : UInt32
deriving DecidableEq

/-- The `namelist` is NULL or an array with the names from index zero on. -/
structure DevnameList where
  whiteBlack : Int
  devnum : Int
  namelist : Option (ℕ → Devname)

end Linguafranca.Ipshark
