import Linguafranca.Support.Bytes

/-!
# The records of ipshark

`struct devname` and `struct ip_key_info`, which the two versions of `ips.h` share. The
unions over the address bytes are their sixteen bytes.
-/

namespace Linguafranca

/-- `IFNAMSIZ` bytes of a device name. -/
abbrev Devname : Type :=
  Bytes 16

/-- The name `eth0`. -/
def eth0 : Devname :=
  (Bytes.zero 16).memcpy (⟨[101, 116, 104, 48], rfl⟩ : Bytes 4) 4

/-- What a hook records of a packet; `direct` has two bits of its four in use. -/
structure IpKeyInfo where
  inDev : Devname
  outDev : Devname
  s : Bytes 16
  d : Bytes 16
  version : BitVec 4
  direct : BitVec 4
  protocol : UInt8
  sport : UInt16
  dport : UInt16
  totallen : UInt16
deriving DecidableEq

end Linguafranca
