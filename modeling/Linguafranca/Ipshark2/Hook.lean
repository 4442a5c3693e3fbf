import Linguafranca.Ipshark.Hook
import Linguafranca.Ipshark2.Devset

/-!
# The hooks of ipshark2

`hook.c` is the one of ipshark over the other device filter, which always has an answer. The
packets and the parts of the record are those of ipshark.
-/

namespace Linguafranca.Ipshark2

open Ipshark (NetDevice SkBuff Packet emptyInfo infoIn infoOut infoPorts)

section

variable (jhash : List UInt8 → UInt32 → UInt32)

/-- A NULL device is ignored. -/
def ignoreDevice (dev : Option NetDevice) (data : Data) : Bool :=
  match dev with
  | none => true
  | some dev => devsetIgnore jhash dev.name.toList data

/-- Both devices of a packet are to be ignored. -/
def ignore (inDev outDev : Option NetDevice) (data : Data) : Bool :=
  if !ignoreDevice jhash inDev data then false
  else if !ignoreDevice jhash outDev data then false
  else true

/-- The record, if any, of a packet with a header of the right version. -/
def hookInfo (version : BitVec 4) (protocol : UInt8) (s d : Bytes 16) (skb : SkBuff)
    (inDev outDev : Option NetDevice) (data : Data) : Option IpKeyInfo :=
  if ignore jhash inDev outDev data then none
  else
    let info := infoOut outDev (infoIn inDev emptyInfo)
    (infoPorts skb { info with protocol := protocol, s := s, d := d, version := version }).map
      fun info => { info with totallen := skb.len.toUInt16 }

/-- The record that `hookfn` makes of a packet, if it makes one. -/
def hookfnInfo (skb : SkBuff) (inDev outDev : Option NetDevice) (data : Data) :
    Option IpKeyInfo :=
  match skb.ipHdr with
  | none => none
  | some hdr =>
      if hdr.version ≠ 4 then none
      else
        hookInfo jhash 4 hdr.protocol ((Bytes.zero 16).memcpy hdr.saddr 4)
          ((Bytes.zero 16).memcpy hdr.daddr 4) skb inDev outDev data

/-- The record that `hookfn6` makes of a packet, if it makes one. -/
def hookfn6Info (skb : SkBuff) (inDev outDev : Option NetDevice) (data : Data) :
    Option IpKeyInfo :=
  match skb.ipv6Hdr with
  | none => none
  | some hdr =>
      if hdr.version ≠ 6 then none
      else
        hookInfo jhash 6 hdr.nexthdr ((Bytes.zero 16).memcpy hdr.saddr 16)
          ((Bytes.zero 16).memcpy hdr.daddr 16) skb inDev outDev data

/-- The record a packet leads to, from the hook of its family. -/
def packetInfo (p : Packet) (data : Data) : Option IpKeyInfo :=
  if p.ipv6 then hookfn6Info jhash p.skb p.inDev p.outDev data
  else hookfnInfo jhash p.skb p.inDev p.outDev data

end

end Linguafranca.Ipshark2
