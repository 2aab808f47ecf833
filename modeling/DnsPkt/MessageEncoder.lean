import DnsPkt.MessageSlots
import DnsPkt.NameEncoder

/-!
# The message encoder

Space is reserved in the packet buffer before a field is written, and what
a name did not use is given back. Writes go through a pointer of their own
and are not tied to the space that was reserved: `HINFO`, `MX`, `SRV` and
`OPT` write elsewhere than their reservation says. The length of the RDATA is
written last, over a placeholder.
-/

set_option autoImplicit false

namespace DnsPkt.MessageEncoder
open DnsPkt.CheckedRun DnsPkt.CheckedRun.Run DnsPkt.Octets DnsPkt.Protocol
open DnsPkt.MessageStore DnsPkt.MessageSlots DnsPkt.NameEncoder

/-- `dns_enc_mkspace`, whose callers all return when there is no room. -/
def mkspace (len : ℕ) : Enc ℕ := do
  let s ← get
  when (s.pktBuf.length < s.pktLen+len) (exit (-1))
  modify fun s => { s with pktLen := s.pktLen+len }
  pure s.pktLen

/-- `len - used` as the unsigned size it is passed on as. -/
def spare (len used : ℕ) : ℕ := if used ≤ len then len-used else 2^64-(used-len)

def retspace (len : ℕ) : Enc Unit := do
  let s ← get
  when (s.pktLen < len) (exit (-1))
  modify fun s => { s with pktLen := s.pktLen-len }

def strOf (st : NameStore) : Ptr → Enc (Option Bytes)
  | .null => pure none
  | .ref off => pure (some (cstr (st.mem.drop off)))
  | .wild => fault .wildRead

/-- `encode_name` and the return of its callers on a null pointer. -/
def putName (w : ℕ) (st : NameStore) (p : Ptr) : Enc ℕ := do
  let name ← strOf st p
  match ← encodeName w name with
  | none => exit (-1)
  | some w' => pure w'

def dnsEncQuest (st : NameStore) (quest : DnsQd Ptr) : Enc Unit := do
  let len := dnsNameMaxlen+4
  let w ← mkspace len
  let w1 ← putName w st quest.qname
  putBuf w1 (encU16 quest.qtype ++ encU16 quest.qclass)
  retspace (spare len (w1+4-w))

def dnsEncName (st : NameStore) (name : Ptr) : Enc Unit := do
  let w ← mkspace dnsNameMaxlen
  let w1 ← putName w st name
  retspace (spare dnsNameMaxlen (w1-w))

def dnsEncMem (mem : Bytes) : Enc Unit := do
  let w ← mkspace mem.length
  putBuf w mem

def dnsEncStr (str : Bytes) : Enc Unit := do
  let w ← mkspace (str.length+1)
  putBuf w (UInt8.ofNat str.length :: str)

def encSoa (st : NameStore) (r : Rdata Ptr) : Enc Unit := do
  dnsEncName st r.soaMname
  dnsEncName st r.soaRname
  dnsEncMem (encU32 r.soaSerial ++ encU32 r.soaRefresh ++ encU32 r.soaRetry ++
    encU32 r.soaExpire ++ encU32 r.soaMinTtl)

/-- The pointer is not moved over the first string, so the length of the
second string and the string itself are written over it. -/
def encHinfo (st : NameStore) (r : Rdata Ptr) : Enc Unit := do
  let cpu ← strOf st r.hinfoCpuStr
  let os ← strOf st r.hinfoOsStr
  let cpu := cpu.getD []
  let os := os.getD []
  let w ← mkspace (2+cpu.length+os.length)
  putBuf w (UInt8.ofNat cpu.length :: cpu)
  putBuf (w+1) (UInt8.ofNat os.length :: os)

/-- Four bytes are reserved for the preference and two are written. -/
def encMx (st : NameStore) (r : Rdata Ptr) : Enc Unit := do
  let w ← mkspace 4
  putBuf w (encU16 r.mxPref)
  dnsEncName st r.mxName

def encTxt (st : NameStore) : List Ptr → Enc Unit
  | [] => pure ()
  | p :: rest => do
    let str ← strOf st p
    dnsEncStr (str.getD [])
    encTxt st rest

def encSrv (st : NameStore) (r : Rdata Ptr) : Enc Unit := do
  let w ← mkspace 2
  putBuf w (encU16 r.srvPrior ++ encU16 r.srvWeight ++ encU16 r.srvPort)
  dnsEncName st r.srvName

def optTtl (r : Rdata Ptr) : ℕ :=
  r.optExtRcode.toNat * 2^24 + r.optEdnsVer.toNat * 2^16 + r.optDoBit.toNat * 2^15 +
    r.optZBits.toNat

/-- The low half of the value is written to the high half of the TTL. -/
def encOpt (r : Rdata Ptr) (rdlenPtr : ℕ) : Enc Unit :=
  putBuf (rdlenPtr-6) (encU16 r.optUdpSize ++ encU16 (UInt16.ofNat (optTtl r)))

def encRdata (st : NameStore) (rr : DnsRr Ptr) (rdlenPtr : ℕ) : Enc Unit :=
  match rrKind rr.rrType with
  | .a => dnsEncMem rr.rdata.a.toList
  | .ns => dnsEncName st rr.rdata.nsName
  | .cname => dnsEncName st rr.rdata.cname
  | .soa => encSoa st rr.rdata
  | .ptr => dnsEncName st rr.rdata.ptrName
  | .hinfo => encHinfo st rr.rdata
  | .mx => encMx st rr.rdata
  | .txt => encTxt st ((List.range rr.rdata.txtNumStr).map fun i => rr.rdata.txtStr.getD i .wild)
  | .aaaa => dnsEncMem rr.rdata.aaaa.toList
  | .srv => encSrv st rr.rdata
  | .opt => encOpt rr.rdata rdlenPtr
  | .any => pure ()
  | .other => pure ()

/-- The record up to its RDATA; the position of the length field is returned. -/
def encRrHdr (st : NameStore) (rr : DnsRr Ptr) : Enc ℕ := do
  let len := dnsNameMaxlen+10
  let w ← mkspace len
  let w1 ← putName w st rr.name
  putBuf w1 (encU16 rr.rrType ++ encU16 rr.rrClass ++ encU32 rr.ttl ++ encU16 0)
  retspace (spare len (w1+10-w))
  pure (w1+8)

def dnsRrEncode (st : NameStore) (rr : DnsRr Ptr) : Enc Unit := do
  let rdlenPtr ← encRrHdr st rr
  let s ← get
  let pktLen := s.pktLen % 2^16
  encRdata st rr rdlenPtr
  let s ← get
  putBuf rdlenPtr (encU16 (UInt16.ofNat (s.pktLen-pktLen)))

def encRecords (st : NameStore) : List (DnsRr Ptr) → Enc Unit
  | [] => pure ()
  | rr :: rest => do
    dnsRrEncode st rr
    encRecords st rest

def dnsSectEnc (m : DnsMsg) (sc : Sect) : Enc Unit := encRecords m.store (records m sc)

def encodeQd (m : DnsMsg) : Enc Unit := when (m.qdLen = 1) (dnsEncQuest m.store m.qd)

/-- The header with the counts that `encode_hdr` puts into it. -/
def syncHdr (m : DnsMsg) : DnsHdr :=
  { m.hdr with
    qdCount := UInt16.ofNat m.qdLen
    anCount := UInt16.ofNat m.an.count
    nsCount := UInt16.ofNat m.ns.count
    arCount := UInt16.ofNat m.ar.count }

def hdrBytes (h : DnsHdr) : Bytes :=
  encU16 h.id ++ encU16 h.flags ++ encU16 h.qdCount ++ encU16 h.anCount ++ encU16 h.nsCount ++
    encU16 h.arCount

def encodeHdr (m : DnsMsg) : Enc Unit := do
  let w ← mkspace dnsHdrLen
  putBuf w (hdrBytes (syncHdr m))

def encodeMsg (m : DnsMsg) : Enc Unit := do
  encodeHdr m
  encodeQd m
  dnsSectEnc m .an
  dnsSectEnc m .ns
  dnsSectEnc m .ar

def initEnc (buf : Bytes) : DnsEnc := ⟨buf, 0, [], Nat.zero_le _⟩

/-- `dns_msg_encode` into a buffer with the given contents: the number it
returns and the encoder it leaves. -/
def dnsMsgEncode (m : DnsMsg) (buf : Bytes) : Outcome DnsEnc ℤ Fault ℤ :=
  (call do
    encodeMsg m
    let s ← get
    pure (s.pktLen : ℤ)) (initEnc buf)

end DnsPkt.MessageEncoder
