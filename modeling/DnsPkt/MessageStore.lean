import DnsPkt.Protocol

/-!
# The message structure and its construction

A message owns fixed arrays of questions and records and one arena for all
strings. A record slot holds pointers into the arena. Slots are written
field by field and counted last, so a failed call leaves its traces behind.
`RDATA` is a union: the members a record type uses are separate fields here,
and a write also changes what its bytes show through `txt.num_str`,
`txt.str` and the flag word of `opt`, the members that are read before they
were written. The layout is that of a little-endian machine with eight-byte
pointers.
-/

set_option autoImplicit false

namespace DnsPkt.MessageStore
open DnsPkt.CheckedRun DnsPkt.Octets DnsPkt.Protocol

/-- A string argument: its bytes before the terminator. -/
structure CStr where
  bytes : Bytes
  no_nul : (0 : UInt8) ∉ bytes

abbrev Str := Option CStr

def Str.bytes : Str → Bytes
  | some s => s.bytes
  | none => []

inductive Ptr where
  | null
  | ref (off : ℕ)
  | wild
  deriving DecidableEq, Repr

def Ptr.address (base : ℕ) : Ptr → ℕ
  | .ref off => base+off
  | _ => 0

structure Rdata (α : Type) where
  a : Vector UInt8 4
  nsName : α
  cname : α
  soaMname : α
  soaRname : α
  soaSerial : UInt32
  soaRefresh : UInt32
  soaRetry : UInt32
  soaExpire : UInt32
  soaMinTtl : UInt32
  ptrName : α
  hinfoCpuStr : α
  hinfoOsStr : α
  mxPref : UInt16
  mxName : α
  txtNumStr : ℕ
  txtStr : List α
  aaaa : Vector UInt8 16
  srvPrior : UInt16
  srvWeight : UInt16
  srvPort : UInt16
  srvName : α
  optUdpSize : UInt16
  optExtRcode : UInt8
  optEdnsVer : UInt8
  optDoBit : Bool
  optZBits : BitVec 15

structure DnsRr (α : Type) where
  name : α
  rrType : UInt16
  rrClass : UInt16
  ttl : UInt32
  rdlen : UInt16
  rdata : Rdata α

structure DnsQd (α : Type) where
  qname : α
  qtype : UInt16
  qclass : UInt16

def zeroRdata {α : Type} (null : α) : Rdata α where
  a := Vector.replicate 4 0
  nsName := null
  cname := null
  soaMname := null
  soaRname := null
  soaSerial := 0
  soaRefresh := 0
  soaRetry := 0
  soaExpire := 0
  soaMinTtl := 0
  ptrName := null
  hinfoCpuStr := null
  hinfoOsStr := null
  mxPref := 0
  mxName := null
  txtNumStr := 0
  txtStr := List.replicate dnsMaxTxt null
  aaaa := Vector.replicate 16 0
  srvPrior := 0
  srvWeight := 0
  srvPort := 0
  srvName := null
  optUdpSize := 0
  optExtRcode := 0
  optEdnsVer := 0
  optDoBit := false
  optZBits := 0

def zeroRr {α : Type} (null : α) : DnsRr α := ⟨null, 0, 0, 0, 0, zeroRdata null⟩

/-! Writes to the union. Bytes 0 and 1 are `txt.num_str`, bytes 4 and 5 the
flag word of `opt`, and the words from byte 8 on are `txt.str`. -/

namespace Rdata

def head (v : ℕ) (r : Rdata Ptr) : Rdata Ptr := { r with txtNumStr := v % 2^16 }

def flagWord (v : ℕ) (r : Rdata Ptr) : Rdata Ptr := { r with optZBits := BitVec.ofNat 15 (v / 2) }

def word (i : ℕ) (p : Ptr) (r : Rdata Ptr) : Rdata Ptr := { r with txtStr := r.txtStr.set i p }

def pointer (base : ℕ) (p : Ptr) (r : Rdata Ptr) : Rdata Ptr :=
  (r.head (p.address base)).flagWord (p.address base / 2^32 % 2^16)

def setA (v : Vector UInt8 4) (r : Rdata Ptr) : Rdata Ptr :=
  { r with a := v }.head (v[0].toNat+256*v[1].toNat)

def setNsName (base : ℕ) (p : Ptr) (r : Rdata Ptr) : Rdata Ptr :=
  { r with nsName := p }.pointer base p

def setCname (base : ℕ) (p : Ptr) (r : Rdata Ptr) : Rdata Ptr :=
  { r with cname := p }.pointer base p

def setSoaMname (base : ℕ) (p : Ptr) (r : Rdata Ptr) : Rdata Ptr :=
  { r with soaMname := p }.pointer base p

def setSoaRname (p : Ptr) (r : Rdata Ptr) : Rdata Ptr := { r with soaRname := p }.word 0 p

def setSoaVals (serial refresh retry expire minTtl : UInt32) (r : Rdata Ptr) : Rdata Ptr :=
  let r := { r with
    soaSerial := serial, soaRefresh := refresh, soaRetry := retry
    soaExpire := expire, soaMinTtl := minTtl }
  ((r.word 1 .wild).word 2 .wild).word 3 .wild

def setPtrName (base : ℕ) (p : Ptr) (r : Rdata Ptr) : Rdata Ptr :=
  { r with ptrName := p }.pointer base p

def setHinfoCpuStr (base : ℕ) (p : Ptr) (r : Rdata Ptr) : Rdata Ptr :=
  { r with hinfoCpuStr := p }.pointer base p

def setHinfoOsStr (p : Ptr) (r : Rdata Ptr) : Rdata Ptr := { r with hinfoOsStr := p }.word 0 p

def setMxPref (v : UInt16) (r : Rdata Ptr) : Rdata Ptr := { r with mxPref := v }.head v.toNat

def setMxName (p : Ptr) (r : Rdata Ptr) : Rdata Ptr := { r with mxName := p }.word 0 p

def setAaaa (v : Vector UInt8 16) (r : Rdata Ptr) : Rdata Ptr :=
  (({ r with aaaa := v }.head (v[0].toNat+256*v[1].toNat)).flagWord
    (v[4].toNat+256*v[5].toNat)).word 0 .wild

def setSrvVals (prior weight port : UInt16) (r : Rdata Ptr) : Rdata Ptr :=
  ({ r with srvPrior := prior, srvWeight := weight, srvPort := port }.head
    prior.toNat).flagWord port.toNat

def setSrvName (p : Ptr) (r : Rdata Ptr) : Rdata Ptr := { r with srvName := p }.word 0 p

/-- The fields of `opt` other than `z_bits`, which shares its word with `do_bit`. -/
def setOpt (udpSize : UInt16) (extRcode ednsVer : UInt8) (doBit : Bool)
    (r : Rdata Ptr) : Rdata Ptr :=
  { r with
    optUdpSize := udpSize, optExtRcode := extRcode, optEdnsVer := ednsVer
    optDoBit := doBit }.head udpSize.toNat

def setOptZBits (z : BitVec 15) (r : Rdata Ptr) : Rdata Ptr := { r with optZBits := z }

end Rdata

/-- `names` and `names_len`. The log is a history that no call reads: the strings that
were stored since the last reset, with their offsets. -/
structure NameStore where
  mem : Bytes
  len : ℕ
  log : List (ℕ × Bytes)
  size : mem.length = dnsMaxPdusize
  fits : len ≤ dnsMaxPdusize

def zeroStore : NameStore :=
  ⟨List.replicate dnsMaxPdusize 0, 0, [], List.length_replicate, Nat.zero_le _⟩

theorem store_size (st : NameStore) (str : Bytes) (h : st.len+str.length+1 ≤ dnsMaxPdusize) :
    (patch st.mem st.len (str ++ [0])).length = dnsMaxPdusize := by
  have hl : (str ++ [0]).length = str.length+1 := by simp
  rw [length_patch _ _ _ (by rw [st.size, hl]; omega), st.size]

/-- `msg_store_str`: the offset of the copy, unless the string or the arena
is too long. -/
def msgStoreStr (st : NameStore) (str : Bytes) : Option (ℕ × NameStore) :=
  if dnsNameMaxstr < str.length then none
  else if h : st.len+str.length+1 ≤ dnsMaxPdusize then
    some (st.len, ⟨patch st.mem st.len (str ++ [0]), st.len+str.length+1,
      st.log ++ [(st.len, str)], store_size st str h, h⟩)
  else none

def NameStore.str (st : NameStore) : Ptr → Option Bytes
  | .ref off => some (cstr (st.mem.drop off))
  | _ => none

structure DnsSect where
  slots : List (DnsRr Ptr)
  count : ℕ
  size : slots.length = dnsMaxRr
  fits : count ≤ dnsMaxRr

def zeroSect : DnsSect :=
  ⟨List.replicate dnsMaxRr (zeroRr .null), 0, List.length_replicate, Nat.zero_le _⟩

inductive Sect where
  | an | ns | ar
  deriving DecidableEq, Repr

structure DnsMsg where
  hdr : DnsHdr
  base : ℕ
  store : NameStore
  qd : DnsQd Ptr
  qdLen : ℕ
  qd_fits : qdLen ≤ dnsMaxQd
  an : DnsSect
  ns : DnsSect
  ar : DnsSect

def zeroMsg (base : ℕ) : DnsMsg :=
  ⟨dnsHdrReset, base, zeroStore, ⟨.null, 0, 0⟩, 0, Nat.zero_le _, zeroSect, zeroSect, zeroSect⟩

def DnsMsg.sect (m : DnsMsg) : Sect → DnsSect
  | .an => m.an
  | .ns => m.ns
  | .ar => m.ar

def DnsMsg.setSect (m : DnsMsg) (sc : Sect) (s : DnsSect) : DnsMsg :=
  match sc with
  | .an => { m with an := s }
  | .ns => { m with ns := s }
  | .ar => { m with ar := s }

def DnsMsg.modifySlot (m : DnsMsg) (sc : Sect) (f : DnsRr Ptr → DnsRr Ptr) : DnsMsg :=
  let s := m.sect sc
  m.setSect sc { s with slots := s.slots.modify s.count f, size := by simp [s.size] }

def DnsMsg.countUp (m : DnsMsg) (sc : Sect) : DnsMsg :=
  let s := m.sect sc
  if h : s.count+1 ≤ dnsMaxRr then m.setSect sc { s with count := s.count+1, fits := h } else m

def dnsMsgReset (m : DnsMsg) : DnsMsg :=
  { m with
    hdr := dnsHdrReset
    store := { m.store with len := 0, log := [], fits := Nat.zero_le _ }
    qdLen := 0
    qd_fits := Nat.zero_le _
    an := { m.an with count := 0, fits := Nat.zero_le _ }
    ns := { m.ns with count := 0, fits := Nat.zero_le _ }
    ar := { m.ar with count := 0, fits := Nat.zero_le _ } }

def dnsMsgInit (m : DnsMsg) (id flags : UInt16) : DnsMsg :=
  { m with hdr := { m.hdr with id := id, flags := flags } }

abbrev Build := Run DnsMsg ℤ Empty

open Run

def storeStr (str : Bytes) : Build Ptr := fun m =>
  match msgStoreStr m.store str with
  | some (off, st) => .ok (.ref off) { m with store := st }
  | none => .ok .null m

def modifySlot (sc : Sect) (f : DnsRr Ptr → DnsRr Ptr) : Build Unit :=
  modify fun m => m.modifySlot sc f

def modifyRdata (sc : Sect) (f : ℕ → Rdata Ptr → Rdata Ptr) : Build Unit :=
  modify fun m => m.modifySlot sc fun r => { r with rdata := f m.base r.rdata }

/-- Store a string in a slot field, with the check for a full store. -/
def addName (sc : Sect) (str : Str) (f : ℕ → Ptr → Rdata Ptr → Rdata Ptr) : Build Unit := do
  let p ← storeStr str.bytes
  modifyRdata sc fun base => f base p
  when (p = .null) (exit (-1))

def addNameUnchecked (sc : Sect) (str : Str) (f : ℕ → Ptr → Rdata Ptr → Rdata Ptr) :
    Build Unit := do
  let p ← storeStr str.bytes
  modifyRdata sc fun base => f base p

def addTxt (sc : Sect) : List Str → Build Unit
  | [] => pure ()
  | str :: rest => do
    let m ← get
    let num := ((m.sect sc).slots.getD (m.sect sc).count (zeroRr .null)).rdata.txtNumStr
    when (dnsMaxTxt ≤ num) (exit (-1))
    let p ← storeStr str.bytes
    modifyRdata sc fun _ r => { r with txtStr := r.txtStr.set num p }
    when (p = .null) (exit (-1))
    modifyRdata sc fun _ r => { r with txtNumStr := r.txtNumStr+1 }
    addTxt sc rest

def addRdata (sc : Sect) (src : DnsRr Str) : Build Unit :=
  match rrKind src.rrType with
  | .a => modifyRdata sc fun _ => Rdata.setA src.rdata.a
  | .ns => addName sc src.rdata.nsName Rdata.setNsName
  | .cname => addName sc src.rdata.cname Rdata.setCname
  | .soa => do
    addName sc src.rdata.soaMname Rdata.setSoaMname
    addNameUnchecked sc src.rdata.soaRname fun _ => Rdata.setSoaRname
    modifyRdata sc fun _ => Rdata.setSoaVals src.rdata.soaSerial src.rdata.soaRefresh
      src.rdata.soaRetry src.rdata.soaExpire src.rdata.soaMinTtl
  | .ptr => addName sc src.rdata.ptrName Rdata.setPtrName
  | .hinfo => do
    addNameUnchecked sc src.rdata.hinfoCpuStr Rdata.setHinfoCpuStr
    addNameUnchecked sc src.rdata.hinfoOsStr fun _ => Rdata.setHinfoOsStr
  | .mx => do
    modifyRdata sc fun _ => Rdata.setMxPref src.rdata.mxPref
    addName sc src.rdata.mxName fun _ => Rdata.setMxName
  | .txt => addTxt sc ((List.range src.rdata.txtNumStr).map fun i => src.rdata.txtStr.getD i none)
  | .aaaa => modifyRdata sc fun _ => Rdata.setAaaa src.rdata.aaaa
  | .srv => do
    modifyRdata sc fun _ => Rdata.setSrvVals src.rdata.srvPrior src.rdata.srvWeight
      src.rdata.srvPort
    addName sc src.rdata.srvName fun _ => Rdata.setSrvName
  | .any => pure ()
  | .opt => modifyRdata sc fun _ => Rdata.setOpt src.rdata.optUdpSize src.rdata.optExtRcode
      src.rdata.optEdnsVer src.rdata.optDoBit
  | .other => pure ()

def dnsSectAddRr (sc : Sect) (src : DnsRr Str) : Build ℤ := do
  let m ← get
  when (dnsMaxRr ≤ (m.sect sc).count) (exit (-1))
  let p ← storeStr src.name.bytes
  modifySlot sc fun r => { r with name := p }
  when (p = .null) (exit (-1))
  modifySlot sc fun r =>
    { r with rrType := src.rrType, rrClass := src.rrClass, ttl := src.ttl }
  addRdata sc src
  modify fun m => m.countUp sc
  pure 0

def returned : Outcome DnsMsg ℤ Empty ℤ → ℤ × DnsMsg
  | .ok rc m => (rc, m)
  | .exit rc m => (rc, m)

def sectOfCode (sc : ℤ) : Option Sect :=
  if sc = 1 then some .an else if sc = 2 then some .ns else if sc = 3 then some .ar else none

def dnsAddRr (m : DnsMsg) (sc : ℤ) (src : Option (DnsRr Str)) : ℤ × DnsMsg :=
  match sectOfCode sc with
  | none => (-1, m)
  | some sect => match src with
    | none => (0, m)
    | some rr => returned (dnsSectAddRr sect rr m)

def dnsAddQdn (m : DnsMsg) (qname : Bytes) (qtype qclass : UInt16) : ℤ × DnsMsg :=
  if h : m.qdLen+1 ≤ dnsMaxQd then
    match msgStoreStr m.store qname with
    | none => (-1, { m with qd := { m.qd with qname := .null } })
    | some (off, st) =>
      (0, { m with store := st, qd := ⟨.ref off, qtype, qclass⟩, qdLen := m.qdLen+1, qd_fits := h })
  else (-1, m)

def dnsAddQd (m : DnsMsg) (qname : Str) (qtype qclass : UInt16) : ℤ × DnsMsg :=
  dnsAddQdn m qname.bytes qtype qclass

end DnsPkt.MessageStore
