import Linguafranca.Support.Bytes

/-!
# Data shared between the nfstat module and its users

The structures of `nfs.h`. An address is twenty bytes: a tag `len`, three bytes of
padding and room for sixteen address bytes. The tag is 4 for an IPv4 address and 6 for
an IPv6 address, which takes all sixteen bytes; a rule uses the tag 0 for an address it
does not care about.
-/

namespace Linguafranca.Nfstat

/-- An address: its tag, and sixteen bytes of which an IPv4 address uses four. -/
structure NfsIpaddr where
  len : UInt8
  padding : Bytes 3
  addr : Bytes 16
deriving DecidableEq

/-- A slot: the number of packets and their bytes. -/
structure NfsCounterVector where
  number : UInt64
  bytes : UInt64
deriving DecidableEq

/-- `NFS_ALL` in the field `dir`: the rule holds for every direction. -/
abbrev nfsAll : UInt8 := 0

/-- `NFS_OUT` in the field `dir`. -/
abbrev nfsOut : UInt8 := 2

/-- A rule; zero in `dir`, a port or the tag of an address means that the rule does not
care about that field. -/
structure NfsRule where
  lip : NfsIpaddr
  rip : NfsIpaddr
  lport : UInt16
  rport : UInt16
  protocol : UInt8
  dir : UInt8
  typeidx : UInt8
deriving DecidableEq

/-- An address of one of the two families with nothing in the bytes it does not use. -/
structure NfsIpaddr.WellFormed (ip : NfsIpaddr) : Prop where
  family : ip.len = 4 ∨ ip.len = 6
  padding : ip.padding = Bytes.zero 3
  unused : ip.len = 4 → ∀ byte ∈ ip.addr.1.drop 4, byte = 0

namespace NfsIpaddr

/-- All bytes zero, the initial value `{0}`. -/
def zero : NfsIpaddr :=
  ⟨0, Bytes.zero 3, Bytes.zero 16⟩

/-- The twenty bytes of the structure in memory. -/
def toBytes (ip : NfsIpaddr) : List UInt8 :=
  ip.len :: (ip.padding.1 ++ ip.addr.1)

/-- The number the twenty bytes spell, by which `memcmp` orders addresses. -/
def key (ip : NfsIpaddr) : ℕ :=
  Bytes.value ip.toBytes

@[simp]
theorem length_toBytes (ip : NfsIpaddr) : ip.toBytes.length = 20 := by
  simp [toBytes, ip.padding.2, ip.addr.2]

theorem toBytes_injective {first second : NfsIpaddr} (same : first.toBytes = second.toBytes) :
    first = second := by
  rcases first with ⟨len, ⟨padding, paddingLength⟩, ⟨addr, addrLength⟩⟩
  rcases second with ⟨len', ⟨padding', paddingLength'⟩, ⟨addr', addrLength'⟩⟩
  simp only [toBytes, List.cons.injEq] at same
  rcases same with ⟨rfl, rest⟩
  rcases List.append_inj rest (paddingLength.trans paddingLength'.symm) with ⟨rfl, rfl⟩
  rfl

theorem key_injective {first second : NfsIpaddr} (same : first.key = second.key) :
    first = second :=
  toBytes_injective (Bytes.value_injective (by simp) same)

end NfsIpaddr

end Linguafranca.Nfstat
