import DnsPkt.CheckedRun
import DnsPkt.Octets

/-!
# Protocol constants, error codes and locations

The limits of `dns_proto.h`, the codes of the decoder's error stack and the
accesses that the codec can make outside the memory it was given.
-/

set_option autoImplicit false

namespace DnsPkt.Protocol
open DnsPkt.Octets

abbrev dnsNameMaxlen : ℕ := 255
abbrev dnsNameMaxstr : ℕ := 253
abbrev dnsLabelMaxstr : ℕ := 63
abbrev dnsHdrLen : ℕ := 12
abbrev dnsMaxUdp : ℕ := 512
abbrev dnsMaxPdusize : ℕ := 2048
abbrev dnsMaxQd : ℕ := 1
abbrev dnsMaxRr : ℕ := 32
abbrev dnsMaxTxt : ℕ := 32
abbrev dnsMaxJmp : ℕ := 16
abbrev dnsMaxSuffix : ℕ := 32
abbrev dnsMaxEmsg : ℕ := 10
abbrev dnsNameSize : ℕ := 256
abbrev dnsMsgSize : ℕ := 4*dnsNameSize+100
abbrev dnsEcIsrow : ℕ := 10000
abbrev dnsFail : ℤ := -1
abbrev decErr : ℤ := -1

inductive DnsEc where
  | eok | ehdrlen | ebadjmp | emaxjmp | enamelen | eoutlen | enonull | etrunc
  | erdatalen | emsgfmt | espace | eopcode | ercode
  deriving DecidableEq, Repr

def DnsEc.code : DnsEc → ℤ
  | .eok => 0 | .ehdrlen => 1 | .ebadjmp => 2 | .emaxjmp => 3 | .enamelen => 4
  | .eoutlen => 5 | .enonull => 6 | .etrunc => 7 | .erdatalen => 8 | .emsgfmt => 9
  | .espace => 10 | .eopcode => 11 | .ercode => 12

inductive DnsLocation where
  | none | pdu | hdr | qd | an | ns | ar | rr | rdata | name | a | tns | cname | soa
  | ptr | hinfo | mx | txt | aaaa | srv | opt | any
  deriving DecidableEq, Repr

structure DnsErr where
  group : DnsLocation
  field : DnsLocation
  ec : ℤ
  deriving DecidableEq, Repr

inductive RrKind where
  | a | ns | cname | soa | ptr | hinfo | mx | txt | aaaa | srv | opt | any | other
  deriving DecidableEq, Repr

def rrKind (rrType : UInt16) : RrKind :=
  match rrType.toNat with
  | 1 => .a | 2 => .ns | 5 => .cname | 6 => .soa | 12 => .ptr | 13 => .hinfo
  | 15 => .mx | 16 => .txt | 28 => .aaaa | 33 => .srv | 41 => .opt | 255 => .any
  | _ => .other

/-- Accesses without a defined effect: a packet byte at or past the packet
length, a write or an unterminated string in the scratch buffer, a write
past the encoder's buffer and a string read through an integer. -/
inductive Fault where
  | pktRead (index : ℕ)
  | msgWrite (index : ℕ)
  | msgRead (index : ℕ)
  | bufWrite (index : ℕ)
  | wildRead
  | fuel
  deriving DecidableEq, Repr

structure DnsHdr where
  id : UInt16
  flags : UInt16
  qdCount : UInt16
  anCount : UInt16
  nsCount : UInt16
  arCount : UInt16
  deriving DecidableEq, Repr

def dnsHdrReset : DnsHdr := ⟨0, 0, 0, 0, 0, 0⟩

end DnsPkt.Protocol
