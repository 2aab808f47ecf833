import DnsPkt.Inspector
import DnsPkt.SelfDelimiting

/-!
# Tagged frames

A stack of VLAN tags between the addresses of a frame and its type. The walk of
the inspector does not depend on where in the memory a frame begins, so behind
the tags it goes on as it does for the frame without them. The walk stays in the
frame; `dns_validate`, which gets what is behind it, need not.
-/

set_option autoImplicit false

namespace DnsPkt.VlanTags
open DnsPkt.CheckedRun DnsPkt.CheckedRun.Run DnsPkt.Octets DnsPkt.Inspector
open DnsPkt.Protocol DnsPkt.RecordDecoder DnsPkt.MessageDecoder DnsPkt.MessageStore
open DnsPkt.RecordEntry DnsPkt.ScratchText DnsPkt.SelfDelimiting
open DnsPkt.PacketBounds (hinfoPkt)

structure VlanTag where
  type : UInt16
  tci : UInt16
  known : isVlan type.toNat = true

def VlanTag.bytes (tag : VlanTag) : Bytes := encU16 tag.type ++ encU16 tag.tci

section Behind

variable (pre rest : Bytes)

def walk (pkt : Bytes) (k ptr : ℕ) : Option ℕ := do
  let (type, ptr) ← tagsEnd pkt k (wordAt pkt ptr) (ptr+2)
  let ptr ← ipEnd pkt type ptr
  udpEnd pkt ptr

end Behind

end DnsPkt.VlanTags
