import DnsPkt.MessageStore
import DnsPkt.NameDecoder
import DnsPkt.ReportText

/-!
# The resource record decoder

One decoder body serves two purposes. With `need_emsg` it describes the
record in a scratch buffer and appends a line to the report; with `load_msg`
it fills the next slot of a message. The scratch cursor advances by the
length `snprintf` asked for, and the room that is left is passed on as an
unsigned size, as in the source.
-/

set_option autoImplicit false

namespace DnsPkt.RecordDecoder
open DnsPkt.CheckedRun DnsPkt.CheckedRun.Run DnsPkt.Octets DnsPkt.Protocol
open DnsPkt.MessageStore DnsPkt.NameDecoder DnsPkt.ReportText

/-- The fields of `struct dns_dec` that decoding does not change. -/
structure DecEnv where
  pkt : Bytes
  needEmsg : Bool
  loadMsg : Bool
  emsgLen : ℕ

/-- The report: the text before the write position, and the cut text that a
write without enough room left behind it. -/
structure Emsg where
  text : Bytes
  tail : Bytes

structure DnsDec where
  offset : ℕ
  errs : List DnsErr
  gotEdns : Bool
  dnssecOk : Bool
  udpSize : ℕ
  extRcode : UInt8
  ednsVer : UInt8
  emsg : Emsg
  hdr : DnsHdr
  msg : Bytes
  msg_size : msg.length = dnsMsgSize

structure DecState where
  dec : DnsDec
  msg : DnsMsg

abbrev Dec := Run DecState ℤ Fault

def dnsDecErr (group field : DnsLocation) (ec : ℤ) (s : DecState) : ℤ × DecState :=
  if dnsMaxEmsg ≤ s.dec.errs.length then (decErr, s)
  else (0, { s with dec.errs := s.dec.errs ++ [⟨group, field, ec⟩] })

def retErr {α : Type} (group field : DnsLocation) (ec : ℤ) : Dec α := fun s =>
  .exit (dnsDecErr group field ec s).1 (dnsDecErr group field ec s).2

def dnsWmsg (env : DecEnv) (text : Bytes) : Dec ℤ := fun s =>
  let avail := env.emsgLen-s.dec.emsg.text.length
  if avail ≤ text.length then
    .ok (-1) { s with dec.emsg.tail := text.take (avail-1) }
  else .ok 0 { s with dec.emsg := ⟨s.dec.emsg.text ++ text, []⟩ }

def readBytes (env : DecEnv) (i n : ℕ) : Dec Bytes := fun s =>
  match pktSlice env.pkt i n with
  | .ok b => .ok b s
  | .error f => .fault f

def getOffset : Dec ℕ := fun s => .ok s.dec.offset s

def advance (n : ℕ) : Dec Unit := modify fun s => { s with dec.offset := s.dec.offset+n }

/-- `wend - wptr` as the unsigned size it is passed on as. -/
def sizeLeft (w : ℕ) : ℕ :=
  if w ≤ dnsMsgSize then dnsMsgSize-w else 2^64-(w-dnsMsgSize)

def putMsg (w : ℕ) (b : Bytes) : Dec Unit := fun s =>
  if b = [] then .ok () s
  else if h : w+b.length ≤ dnsMsgSize then
    .ok () { s with
      dec.msg := patch s.dec.msg w b
      dec.msg_size := by rw [length_patch _ _ _ (by rw [s.dec.msg_size]; exact h), s.dec.msg_size] }
  else .fault (.msgWrite (max w dnsMsgSize))

def msgStr (w : ℕ) : Dec Bytes := fun s =>
  if (0 : UInt8) ∈ s.dec.msg.drop w then .ok (cstr (s.dec.msg.drop w)) s
  else .fault (.msgRead dnsMsgSize)

def snprintf (w : ℕ) (text : Bytes) : Dec ℕ := do
  let n := sizeLeft w
  putMsg w (if n = 0 then [] else text.take (n-1) ++ [0])
  pure text.length

/-- `snprintf` at the cursor when a description is wanted: the new cursor and `rc`. -/
def describe (env : DecEnv) (w : ℕ) (rc : ℤ) (text : Bytes) : Dec (ℕ × ℤ) :=
  if env.needEmsg then do
    let n ← snprintf w text
    pure (w+n, n)
  else pure (w, rc)

def dnsAddStr (w : ℕ) (str : Bytes) : Dec ℕ := do
  when (sizeLeft w < str.length+1) (exit (-1))
  putMsg w (str ++ [0])
  pure str.length

def dnsNullStr : Bytes := ascii "."

/-- `fix_label` for a name of `n` bytes with its terminator. -/
def fixLabel (n w : ℕ) : Dec ℕ :=
  if n ≠ 1 then pure (n-1) else dnsAddStr w dnsNullStr

def decodeNameAt (env : DecEnv) (w : ℕ) : Dec (Except DnsEc ℕ) := fun s =>
  match decodeName env.pkt s.dec.offset (sizeLeft w) with
  | .error f => .fault f
  | .ok r => (putMsg w r.out >>= fun _ => modify (fun s => { s with dec.offset := r.offset })
      >>= fun _ => pure r.result) s

/-- A name of a record at the cursor: decode it, record a failure under
`field`, put the root as a dot. The length of its text is returned. -/
def nameField (env : DecEnv) (field : DnsLocation) (w : ℕ) : Dec ℕ := do
  let r ← decodeNameAt env w
  match r with
  | .error ec => retErr .rr field ec.code
  | .ok n => fixLabel n w

def modifySlot (sc : Sect) (f : ℕ → DnsRr Ptr → DnsRr Ptr) : Dec Unit :=
  modify fun s => { s with msg := s.msg.modifySlot sc (f s.msg.base) }

def storeInto (sc : Sect) (str : Bytes) (f : ℕ → Ptr → DnsRr Ptr → DnsRr Ptr) : Dec Ptr := fun s =>
  match msgStoreStr s.msg.store str with
  | some (off, st) =>
    (modifySlot sc (fun base => f base (.ref off)) >>= fun _ => pure (.ref off))
      { s with msg.store := st }
  | none => (modifySlot sc (fun base => f base .null) >>= fun _ => pure .null) s

/-- `if (rr) { field = msg_store_str(...); if (!field) return -1; }`. -/
def loadStr (sc : Sect) (str : Bytes) (f : ℕ → Ptr → DnsRr Ptr → DnsRr Ptr) : Dec Unit := do
  let p ← storeInto sc str f
  when (p = .null) (exit (-1))

def loadName (env : DecEnv) (sc : Sect) (w : ℕ) (f : ℕ → Ptr → DnsRr Ptr → DnsRr Ptr) :
    Dec Unit :=
  when env.loadMsg do
    let t ← msgStr w
    loadStr sc t f

def onRdata (f : ℕ → Ptr → Rdata Ptr → Rdata Ptr) (base : ℕ) (p : Ptr) (r : DnsRr Ptr) :
    DnsRr Ptr := { r with rdata := f base p r.rdata }

def loadRdata (env : DecEnv) (sc : Sect) (f : Rdata Ptr → Rdata Ptr) : Dec Unit :=
  when env.loadMsg (modifySlot sc fun _ r => { r with rdata := f r.rdata })

structure RrHdr where
  rrType : UInt16
  rrClass : UInt16
  ttl : UInt32
  rdlen : UInt16

inductive Desc where
  | empty
  | scratch (w : ℕ)
  | unknown

structure RdataOut where
  rc : ℤ
  desc : Desc
  root : Bool

def toVector (n : ℕ) (b : Bytes) : Vector UInt8 n := Vector.ofFn fun i => b.getD i 0

/-- The description of an address, which is an IPv4 text for both address types. -/
def describeIp (env : DecEnv) (start w : ℕ) (rc : ℤ) : Dec RdataOut :=
  if env.needEmsg then
    if sizeLeft w < ip4AddrStrlen then pure ⟨rc, .unknown, false⟩
    else do
      let b ← readBytes env start 4
      putMsg w (ip4Str b ++ [0])
      pure ⟨rc, .scratch w, false⟩
  else pure ⟨rc, .empty, false⟩

def rdataA (env : DecEnv) (sc : Sect) (h : RrHdr) (w start : ℕ) (rc : ℤ) : Dec RdataOut := do
  when (h.rdlen.toNat ≠ 4) (retErr .rr .a DnsEc.erdatalen.code)
  when env.loadMsg do
    let b ← readBytes env start 4
    loadRdata env sc (Rdata.setA (toVector 4 b))
  advance 4
  describeIp env start w rc

def rdataAaaa (env : DecEnv) (sc : Sect) (h : RrHdr) (w start : ℕ) (rc : ℤ) : Dec RdataOut := do
  when (h.rdlen.toNat ≠ 16) (retErr .rr .aaaa DnsEc.erdatalen.code)
  advance 16
  when env.loadMsg do
    let b ← readBytes env start 16
    loadRdata env sc (Rdata.setAaaa (toVector 16 b))
  describeIp env start w rc

def rdataName (env : DecEnv) (sc : Sect) (field : DnsLocation)
    (f : ℕ → Ptr → Rdata Ptr → Rdata Ptr) (w : ℕ) : Dec RdataOut := do
  let n ← nameField env field w
  loadName env sc w (onRdata f)
  pure ⟨n, .scratch w, false⟩

def rdataNs (env : DecEnv) (sc : Sect) (w : ℕ) : Dec RdataOut :=
  rdataName env sc .tns Rdata.setNsName w

def rdataCname (env : DecEnv) (sc : Sect) (w : ℕ) : Dec RdataOut :=
  rdataName env sc .cname Rdata.setCname w

/-- A failure in a `PTR` name is recorded under `CNAME`. -/
def rdataPtr (env : DecEnv) (sc : Sect) (w : ℕ) : Dec RdataOut :=
  rdataName env sc .cname Rdata.setPtrName w

def describeVals (env : DecEnv) : List (String × UInt32) → ℕ → ℤ → Dec (ℕ × ℤ)
  | [], w, rc => pure (w, rc)
  | (name, val) :: rest, w, rc => do
    let (w, rc) ← describe env w rc (ascii " " ++ ascii name ++ ascii "=" ++ decimal val.toNat)
    describeVals env rest w rc

def rdataSoa (env : DecEnv) (sc : Sect) (w rdEnd : ℕ) (rc : ℤ) : Dec RdataOut := do
  let (w1, _) ← describe env w rc (ascii "MNAME=")
  let n1 ← nameField env .soa w1
  loadName env sc w1 (onRdata Rdata.setSoaMname)
  let (w2, _) ← describe env (w1+n1) rc (ascii " RNAME=")
  let n2 ← nameField env .soa w2
  when env.loadMsg do
    let t ← msgStr w2
    let _ ← storeInto sc t (onRdata fun _ => Rdata.setSoaRname)
  let off ← getOffset
  when (rdEnd < off+20) (retErr .rr .soa DnsEc.erdatalen.code)
  let b ← readBytes env off 20
  advance 20
  let serial := decU32 (slice b 0 4)
  let refresh := decU32 (slice b 4 4)
  let retry := decU32 (slice b 8 4)
  let expire := decU32 (slice b 12 4)
  let minTtl := decU32 (slice b 16 4)
  let (_, rc) ← describeVals env [("serial", serial), ("refresh", refresh), ("retry", retry),
    ("expire", expire), ("min_ttl", minTtl)] (w2+n2) n2
  loadRdata env sc (Rdata.setSoaVals serial refresh retry expire minTtl)
  pure ⟨rc, .scratch w, false⟩

/-- A character string: its length byte, the check against the RDATA end,
the description and the copy into the message. -/
def strField (env : DecEnv) (field : DnsLocation) (label : Bytes) (rdEnd w : ℕ) (rc : ℤ)
    (load : Bytes → Dec Unit) : Dec (ℕ × ℤ) := do
  let off ← getOffset
  let b ← readBytes env off 1
  let len := (b.getD 0 0).toNat
  advance 1
  when (rdEnd < off+1+len) (retErr .rr field DnsEc.erdatalen.code)
  let str ← readBytes env (off+1) len
  let (w, rc) ← describe env w rc (label ++ cstr str)
  when env.loadMsg (load str)
  advance len
  pure (w, rc)

def rdataHinfo (env : DecEnv) (sc : Sect) (h : RrHdr) (w rdEnd : ℕ) (rc : ℤ) : Dec RdataOut := do
  when (h.rdlen.toNat < 2) (retErr .rr .hinfo DnsEc.erdatalen.code)
  let (w1, rc) ← strField env .hinfo (ascii " cpu=") rdEnd w rc fun str =>
    loadStr sc str (onRdata Rdata.setHinfoCpuStr)
  let off ← getOffset
  when (rdEnd ≤ off) (retErr .rr .hinfo DnsEc.erdatalen.code)
  let (_, rc) ← strField env .hinfo (ascii " os-str=") rdEnd w1 rc fun str =>
    loadStr sc str (onRdata fun _ => Rdata.setHinfoOsStr)
  pure ⟨rc, .scratch w, false⟩

def rdataMx (env : DecEnv) (sc : Sect) (h : RrHdr) (w start : ℕ) (rc : ℤ) : Dec RdataOut := do
  when (h.rdlen.toNat < 3) (retErr .rr .mx DnsEc.erdatalen.code)
  let b ← readBytes env start 2
  let pref := decU16 b
  advance 2
  let (w1, _) ← describe env w rc (ascii "pref " ++ decimal pref.toNat ++ ascii " ")
  let n ← nameField env .mx w1
  loadRdata env sc (Rdata.setMxPref pref)
  loadName env sc w1 (onRdata fun _ => Rdata.setMxName)
  pure ⟨n, .scratch w, false⟩

/-- Append one string to the slot's `txt`, if its array has room. -/
def loadTxt (sc : Sect) (str : Bytes) : Dec Unit := do
  let s ← get
  let num := ((s.msg.sect sc).slots.getD (s.msg.sect sc).count (zeroRr .null)).rdata.txtNumStr
  when (dnsMaxTxt ≤ num) (exit (-1))
  loadStr sc str (onRdata fun _ p r => { r with txtStr := r.txtStr.set num p })
  modifySlot sc fun _ r => { r with rdata := { r.rdata with txtNumStr := r.rdata.txtNumStr+1 } }

/-- The loop over character strings. Every round consumes a byte, so the
RDATA length bounds the rounds. -/
def txtLoop (env : DecEnv) (sc : Sect) (rdEnd : ℕ) : ℕ → ℕ → ℤ → Dec (ℕ × ℤ)
  | 0, w, rc => pure (w, rc)
  | k+1, w, rc => do
    let off ← getOffset
    if off < rdEnd then do
      let (w, rc) ← strField env .txt (ascii " txt=") rdEnd w rc (loadTxt sc)
      txtLoop env sc rdEnd k w rc
    else pure (w, rc)

def rdataTxt (env : DecEnv) (sc : Sect) (w start rdEnd : ℕ) (rc : ℤ) : Dec RdataOut := do
  let (_, rc) ← txtLoop env sc rdEnd (rdEnd-start) w rc
  pure ⟨rc, .scratch w, false⟩

def rdataSrv (env : DecEnv) (sc : Sect) (h : RrHdr) (w start : ℕ) (rc : ℤ) : Dec RdataOut := do
  when (h.rdlen.toNat < 7) (retErr .rr .srv DnsEc.erdatalen.code)
  let b ← readBytes env start 6
  let prior := decU16 (slice b 0 2)
  let weight := decU16 (slice b 2 2)
  let port := decU16 (slice b 4 2)
  advance 6
  let (w1, _) ← describe env w rc (ascii "Priority " ++ decimal prior.toNat ++ ascii " Weight " ++
    decimal weight.toNat ++ ascii " port " ++ decimal port.toNat ++ ascii " ")
  let n ← nameField env .srv w1
  loadRdata env sc (Rdata.setSrvVals prior weight port)
  loadName env sc w1 (onRdata fun _ => Rdata.setSrvName)
  pure ⟨n, .scratch w, false⟩

/-- What `MX` and `SRV` do alike: `len` bytes of numbers, and a name behind them. -/
def rdataNumsName (env : DecEnv) (sc : Sect) (h : RrHdr) (field : DnsLocation) (len : ℕ)
    (text : Bytes → Bytes) (setNums : Bytes → Rdata Ptr → Rdata Ptr)
    (setName : Ptr → Rdata Ptr → Rdata Ptr) (w start : ℕ) (rc : ℤ) : Dec RdataOut := do
  when (h.rdlen.toNat < len+1) (retErr .rr field DnsEc.erdatalen.code)
  let b ← readBytes env start len
  advance len
  let (w1, _) ← describe env w rc (text b)
  let n ← nameField env field w1
  loadRdata env sc (setNums b)
  loadName env sc w1 (onRdata fun _ => setName)
  pure ⟨n, .scratch w, false⟩

theorem rdataMx_eq (env : DecEnv) (sc : Sect) (h : RrHdr) (w start : ℕ) (rc : ℤ) :
    rdataMx env sc h w start rc = rdataNumsName env sc h .mx 2
      (fun b => ascii "pref " ++ decimal (decU16 b).toNat ++ ascii " ")
      (fun b => Rdata.setMxPref (decU16 b)) Rdata.setMxName w start rc := rfl

theorem rdataSrv_eq (env : DecEnv) (sc : Sect) (h : RrHdr) (w start : ℕ) (rc : ℤ) :
    rdataSrv env sc h w start rc = rdataNumsName env sc h .srv 6
      (fun b => ascii "Priority " ++ decimal (decU16 (slice b 0 2)).toNat ++ ascii " Weight " ++
        decimal (decU16 (slice b 2 2)).toNat ++ ascii " port " ++
        decimal (decU16 (slice b 4 2)).toNat ++ ascii " ")
      (fun b => Rdata.setSrvVals (decU16 (slice b 0 2)) (decU16 (slice b 2 2))
        (decU16 (slice b 4 2))) Rdata.setSrvName w start rc := rfl

def optExtRcode (ttl : UInt32) : UInt8 := UInt8.ofNat (ttl.toNat / 2^24)

def optVersion (ttl : UInt32) : UInt8 := UInt8.ofNat (ttl.toNat / 2^16)

def optDoBit (ttl : UInt32) : Bool := ttl.toNat / 2^15 % 2 = 1

def optZBits (ttl : UInt32) : BitVec 15 := BitVec.ofNat 15 ttl.toNat

def optText (h : RrHdr) : Bytes :=
  ascii "UDP-size:" ++ decimal h.rrClass.toNat ++ ascii " Ext-RCODE:" ++
    decimal (optExtRcode h.ttl).toNat ++ ascii " EDNS0:" ++ decimal (optVersion h.ttl).toNat ++
    ascii " DNSEC-OK:" ++ decimal (optDoBit h.ttl).toNat

def loadOpt (sc : Sect) (h : RrHdr) : Dec Unit := do
  modifySlot sc fun _ r =>
    { r with
      rdata := (r.rdata.setOpt h.rrClass (optExtRcode h.ttl) (optVersion h.ttl)
        (optDoBit h.ttl)).setOptZBits (optZBits h.ttl)
      rrClass := 0 }
  let t ← msgStr 0
  loadStr sc t fun _ p r => { r with name := p }

def rdataOpt (env : DecEnv) (sc : Sect) (h : RrHdr) (w rdEnd : ℕ) : Dec RdataOut := do
  when (sc ≠ .ar) (retErr .rr .opt DnsEc.emsgfmt.code)
  when env.loadMsg (loadOpt sc h)
  let s ← get
  let root := s.dec.msg.head? = some 46
  let n ← snprintf w (optText h)
  modify fun s => { s with
    dec.gotEdns := true
    dec.udpSize := h.rrClass.toNat
    dec.extRcode := optExtRcode h.ttl
    dec.ednsVer := optVersion h.ttl
    dec.dnssecOk := optDoBit h.ttl
    dec.offset := rdEnd }
  pure ⟨n, .scratch w, root⟩

def rdataSkip (h : RrHdr) (rc : ℤ) : Dec RdataOut := do
  advance h.rdlen.toNat
  pure ⟨rc, .empty, false⟩

def rrRdata (env : DecEnv) (sc : Sect) (h : RrHdr) (w start rdEnd : ℕ) (rc : ℤ) : Dec RdataOut :=
  match rrKind h.rrType with
  | .a => rdataA env sc h w start rc
  | .ns => rdataNs env sc w
  | .cname => rdataCname env sc w
  | .soa => rdataSoa env sc w rdEnd rc
  | .ptr => rdataPtr env sc w
  | .hinfo => rdataHinfo env sc h w rdEnd rc
  | .mx => rdataMx env sc h w start rc
  | .txt => rdataTxt env sc w start rdEnd rc
  | .aaaa => rdataAaaa env sc h w start rc
  | .srv => rdataSrv env sc h w start rc
  | .opt => rdataOpt env sc h w rdEnd
  | .any => rdataSkip h rc
  | .other => rdataSkip h rc

def Sect.loc : Sect → DnsLocation
  | .an => .an
  | .ns => .ns
  | .ar => .ar

def rrSlot (env : DecEnv) (sc : Sect) : Dec Unit := do
  let s ← get
  when (env.loadMsg ∧ dnsMaxRr ≤ (s.msg.sect sc).count) (exit (-1))

def rrName (env : DecEnv) (sc : Sect) : Dec ℕ := do
  let n ← nameField env .name 0
  loadName env sc 0 fun _ p r => { r with name := p }
  pure n

def rrHdr (env : DecEnv) (sc : Sect) : Dec RrHdr := do
  let off ← getOffset
  when (env.pkt.length < off+10) (retErr .rr .hdr DnsEc.etrunc.code)
  let b ← readBytes env off 10
  let h : RrHdr := ⟨decU16 (slice b 0 2), decU16 (slice b 2 2), decU32 (slice b 4 4),
    decU16 (slice b 8 2)⟩
  advance 10
  when env.loadMsg (modifySlot sc fun _ r =>
    { r with rrType := h.rrType, rrClass := h.rrClass, ttl := h.ttl, rdlen := h.rdlen })
  pure h

def descText : Desc → Dec Bytes
  | .empty => pure []
  | .unknown => pure (ascii "???")
  | .scratch w => msgStr w

def strDef (str dflt : Bytes) : Bytes := if str = [] then dflt else str

def rrLine (sc : Sect) (h : RrHdr) (name desc : Bytes) : Bytes :=
  let recName := strDef name (ascii "<null>")
  let typeStr := dnsTypeTostr h.rrType.toNat
  if rrKind h.rrType = .opt then
    ascii "  " ++ decCodeTostr (Sect.loc sc) ++ ascii ": " ++ recName ++ ascii " " ++ typeStr ++
      ascii " " ++ desc ++ ascii "\n"
  else
    ascii "  " ++ decCodeTostr (Sect.loc sc) ++ ascii ": " ++ recName ++ ascii " " ++
      decimal h.ttl.toNat ++ ascii " " ++ dnsClassTostr h.rrClass.toNat ++ ascii " " ++ typeStr ++
      ascii " " ++ desc ++ ascii "\n"

def nameText (out : RdataOut) : Dec Bytes := if out.root then pure (ascii "<Root>") else msgStr 0

def rrReport (env : DecEnv) (sc : Sect) (h : RrHdr) (out : RdataOut) : Dec ℤ :=
  if env.needEmsg then do
    let name ← nameText out
    let desc ← descText out.desc
    dnsWmsg env (rrLine sc h name desc)
  else pure out.rc

def rrBody (env : DecEnv) (sc : Sect) : Dec ℤ := do
  rrSlot env sc
  let n ← rrName env sc
  let h ← rrHdr env sc
  let start ← getOffset
  let rdEnd := (start+h.rdlen.toNat) % 2^16
  when (env.pkt.length < rdEnd) (retErr .rr .rdata DnsEc.etrunc.code)
  let out ← rrRdata env sc h (n+1) start rdEnd n
  let off ← getOffset
  when (off ≠ rdEnd) (retErr .rr .rdata DnsEc.erdatalen.code)
  when env.loadMsg (modify fun s => { s with msg := s.msg.countUp sc })
  rrReport env sc h out

def dnsRrDecode (env : DecEnv) (sc : Sect) : Dec ℤ := call (rrBody env sc)

end DnsPkt.RecordDecoder
