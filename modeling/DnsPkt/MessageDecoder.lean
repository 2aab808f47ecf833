import DnsPkt.RecordDecoder

/-!
# The message decoder and its two entry points

The header, the question section and the three record sections are decoded
in turn. A section stops at the first entry whose decoder does not return
zero and pushes an error for its row; pushing succeeds while the error stack
has room, and decoding then goes on with the next section. `dns_validate`
looks at the stack afterwards, `dns_msg_decode` does not.
-/

set_option autoImplicit false

namespace DnsPkt.MessageDecoder
open DnsPkt.CheckedRun DnsPkt.CheckedRun.Run DnsPkt.Octets DnsPkt.Protocol
open DnsPkt.MessageStore DnsPkt.NameDecoder DnsPkt.ReportText DnsPkt.RecordDecoder

/-- `dns_hdr_decode` on a packet of at least twelve bytes. -/
def dnsHdrDecode (b : Bytes) : DnsHdr :=
  ⟨decU16 (slice b 0 2), decU16 (slice b 2 2), decU16 (slice b 4 2), decU16 (slice b 6 2),
    decU16 (slice b 8 2), decU16 (slice b 10 2)⟩

def flagSet (flags : UInt16) (bit : ℕ) : Bool := flags.toNat.testBit bit

def opcode (flags : UInt16) : ℕ := flags.toNat / 2^11 % 16

def rcode (flags : UInt16) : ℕ := flags.toNat % 16

def badOpcode (flags : UInt16) : Bool := opcode flags = 3 ∨ 5 < opcode flags

def badRcode (flags : UInt16) : Bool := 10 < rcode flags

abbrev flagsSize : ℕ := 100

def putFlag (set : Bool) (text : String) (buf : Bytes) : Bytes :=
  if set then sbufPuticm flagsSize buf 32 (ascii text) else buf

def flagsText (flags : UInt16) : Bytes :=
  if flagSet flags 15 then
    let buf := putFlag (flagSet flags 10) "AS:1" []
    let buf := putFlag (flagSet flags 9) "TC:1" buf
    let buf := putFlag (flagSet flags 8) "RD:1" buf
    let buf := putFlag (flagSet flags 7) "RA:1" buf
    let buf := putFlag true "RCODE:" buf
    let buf := sbufPuts flagsSize buf (rcodeTostr (rcode flags))
    let buf := putFlag (badOpcode flags) "bad-opcode" buf
    putFlag (badRcode flags) "bad-rcode" buf
  else
    let buf := putFlag (flagSet flags 9) "TC:1" []
    let buf := putFlag (flagSet flags 8) "RD:1" buf
    let buf := putFlag (flagSet flags 11) "CD:1" buf
    let buf := putFlag (flagSet flags 5) "AD:1" buf
    putFlag (badOpcode flags) "bad-opcode" buf

def hdrLine (hdr : DnsHdr) : Bytes :=
  ascii "[" ++ (if flagSet hdr.flags 15 then ascii "RESPONSE" else ascii "QUERY") ++
    ascii "] ID 0x" ++ hex4 hdr.id.toNat ++ ascii " QR:" ++
    decimal (flagSet hdr.flags 15).toNat ++ ascii " OPCODE:" ++
    opcodeTostr (opcode hdr.flags) ++ ascii " " ++ cstr (flagsText hdr.flags) ++ ascii "\n"

def pushErr (group field : DnsLocation) (ec : ℤ) : Dec Unit :=
  modify fun s => (dnsDecErr group field ec s).2

/-- The range checks of the header. A response with a bad opcode is only
described as such, no error is recorded for it. -/
def checkFlags (flags : UInt16) : Dec Unit :=
  if flagSet flags 15 then when (badRcode flags) (pushErr .pdu .hdr DnsEc.ercode.code)
  else when (badOpcode flags) (pushErr .pdu .hdr DnsEc.eopcode.code)

def hdrBody (env : DecEnv) : Dec ℤ := do
  when (env.pkt.length < dnsHdrLen) (retErr .pdu .hdr DnsEc.ehdrlen.code)
  let b ← readBytes env 0 dnsHdrLen
  modify fun s => { s with msg.hdr := dnsHdrDecode b }
  advance dnsHdrLen
  when (¬ env.needEmsg) (exit 0)
  modify fun s => { s with dec.hdr := dnsHdrDecode b }
  checkFlags (dnsHdrDecode b).flags
  dnsWmsg env (hdrLine (dnsHdrDecode b))

def decodeHdr (env : DecEnv) : Dec ℤ := call (hdrBody env)

def qdLine (name : Bytes) (qtype qclass : UInt16) : Bytes :=
  ascii "  Question: " ++ strDef name (ascii "<null>") ++ ascii " " ++
    dnsClassTostr qclass.toNat ++ ascii " " ++ dnsTypeTostr qtype.toNat ++ ascii "\n"

def qdSlot (env : DecEnv) : Dec Unit := do
  let s ← get
  when (env.loadMsg ∧ dnsMaxQd ≤ s.msg.qdLen) (exit (-1))

/-- The name of a question. Its error is recorded with the negative code and
the root stays an empty string. The bytes written are returned. -/
def qdName (env : DecEnv) : Dec ℕ := do
  let r ← decodeNameAt env 0
  match r with
  | .error ec => retErr .qd .name (-ec.code)
  | .ok n => pure n

def addQd (m : DnsMsg) (qd : DnsQd Ptr) : DnsMsg :=
  if h : m.qdLen+1 ≤ dnsMaxQd then { m with qd := qd, qdLen := m.qdLen+1, qd_fits := h } else m

def loadQd (qtype qclass : UInt16) : Dec Unit := do
  let t ← msgStr 0
  let s ← get
  match msgStoreStr s.msg.store t with
  | none => do
    modify fun s => { s with msg.qd.qname := .null }
    exit (-1)
  | some (off, st) =>
    modify fun s => { s with msg := addQd { s.msg with store := st } ⟨.ref off, qtype, qclass⟩ }

def qdFixed (env : DecEnv) : Dec (UInt16 × UInt16) := do
  let off ← getOffset
  when (env.pkt.length < off+4) (retErr .qd .hdr DnsEc.etrunc.code)
  let b ← readBytes env off 4
  advance 4
  pure (decU16 (slice b 0 2), decU16 (slice b 2 2))

def qdBody (env : DecEnv) : Dec ℤ := do
  qdSlot env
  let n ← qdName env
  let (qtype, qclass) ← qdFixed env
  when env.loadMsg (loadQd qtype qclass)
  if env.needEmsg then do
    let name ← msgStr 0
    dnsWmsg env (qdLine name qtype qclass)
  else pure n

def dnsQdDecode (env : DecEnv) : Dec ℤ := call (qdBody env)

def rowStep (entry : Dec ℤ) (loc : DnsLocation) (i : ℕ) : Dec Unit := do
  let rc ← entry
  when (rc ≠ 0) (retErr .pdu loc (i+dnsEcIsrow))

/-- The loop of `decode_qd` and `dns_sect_decode` over `nrec` entries. -/
def rows (entry : Dec ℤ) (loc : DnsLocation) (nrec : ℕ) : Dec ℤ :=
  call do
    loop (rowStep entry loc) 0 nrec
    pure 0

def decodeQd (env : DecEnv) : Dec ℤ := do
  let s ← get
  rows (dnsQdDecode env) .qd s.msg.hdr.qdCount.toNat

def sectCount (hdr : DnsHdr) : Sect → ℕ
  | .an => hdr.anCount.toNat
  | .ns => hdr.nsCount.toNat
  | .ar => hdr.arCount.toNat

def decodeSect (env : DecEnv) (sc : Sect) : Dec ℤ := do
  let s ← get
  rows (dnsRrDecode env sc) (Sect.loc sc) (sectCount s.msg.hdr sc)

def orReturn (x : Dec ℤ) : Dec Unit := do
  let rc ← x
  when (rc ≠ 0) (exit rc)

def decodeSects (env : DecEnv) : List Sect → Dec Unit
  | [] => pure ()
  | sc :: rest => do
    orReturn (decodeSect env sc)
    decodeSects env rest

def sizeLine (len udpSize : ℕ) : Bytes :=
  ascii "UDP message: packet-length " ++ decimal len ++ ascii " > max size " ++ decimal udpSize ++
    ascii "\n"

def sizeCheck (env : DecEnv) : Dec ℤ := do
  let s ← get
  if env.needEmsg ∧ s.dec.udpSize < env.pkt.length then
    dnsWmsg env (sizeLine env.pkt.length s.dec.udpSize)
  else pure 0

def decodeFront (env : DecEnv) : Dec Unit := do
  modify fun s => { s with msg := dnsMsgReset s.msg }
  orReturn (decodeHdr env)
  orReturn (decodeQd env)

def decodeMsg (env : DecEnv) : Dec ℤ :=
  call do
    decodeFront env
    decodeSects env [.an, .ns, .ar]
    sizeCheck env

def dnsErrTostr (err : DnsErr) : Bytes :=
  decCodeTostr err.group ++ ascii " " ++ decCodeTostr err.field ++ ascii " " ++ dnsEcTostr err.ec

/-- The loop over the errors, the latest first. Each is put into the scratch
buffer, which is longer than any of these texts. -/
def errChain (env : DecEnv) : List DnsErr → Dec Unit
  | [] => pure ()
  | err :: rest => do
    let _ ← snprintf 0 (dnsErrTostr err)
    let _ ← dnsWmsg env (ascii "/ " ++ dnsErrTostr err)
    errChain env rest

def dnsDecGenmsg (env : DecEnv) : Dec ℤ := do
  let s ← get
  if s.dec.errs = [] then do
    when (env.emsgLen ≤ s.dec.emsg.text.length) do
      let _ ← dnsWmsg env (ascii "[ERROR] Missing PDU desc")
    pure 0
  else do
    let _ ← dnsWmsg env (ascii "[ERROR] ")
    when (dnsHdrLen ≤ env.pkt.length) do
      let _ ← dnsWmsg env (ascii "ID 0x" ++ hex4 s.dec.hdr.id.toNat ++ ascii " ")
    errChain env s.dec.errs.reverse
    let _ ← dnsWmsg env (ascii "\n")
    pure decErr

def initDec : DnsDec where
  offset := 0
  errs := []
  gotEdns := false
  dnssecOk := false
  udpSize := dnsMaxUdp
  extRcode := 0
  ednsVer := 0
  emsg := ⟨[], []⟩
  hdr := dnsHdrReset
  msg := List.replicate dnsMsgSize 0
  msg_size := List.length_replicate

def validateEnv (pkt : Bytes) (emsgLen : ℕ) : DecEnv := ⟨pkt, true, false, emsgLen⟩

def loadEnv (pkt : Bytes) : DecEnv := ⟨pkt, false, true, 0⟩

def validateRun (env : DecEnv) : Dec ℤ := do
  let rc ← decodeMsg env
  let ec ← dnsDecGenmsg env
  pure (if ec ≠ 0 ∧ rc = 0 then ec else rc)

def initState (m : DnsMsg) : DecState := ⟨initDec, m⟩

/-- `dns_validate` with a report buffer of `emsgLen` bytes: the code it
returns and the decoder it leaves. -/
def dnsValidate (pkt : Bytes) (emsgLen : ℕ) : Outcome DecState ℤ Fault ℤ :=
  validateRun (validateEnv pkt emsgLen) (initState (zeroMsg 0))

def dnsMsgDecode (m : DnsMsg) (pkt : Bytes) : Outcome DecState ℤ Fault ℤ :=
  decodeMsg (loadEnv pkt) (initState m)

def responseHdr (an ns ar : UInt8) : Bytes := [0x12, 0x34, 0x81, 0x80, 0, 0, 0, an, 0, ns, 0, ar]

/-! The record decodes of a run, each with its section and the state in which
`dns_rr_decode` is called. -/

def sectVisits (env : DecEnv) (sc : Sect) (s : DecState) : List (Sect × DecState) :=
  (visits (rowStep (dnsRrDecode env sc) (Sect.loc sc)) 0 (sectCount s.msg.hdr sc) s).map
    fun v => (sc, v.2)

def sectsVisits (env : DecEnv) : List Sect → DecState → List (Sect × DecState)
  | [], _ => []
  | sc :: rest, s => sectVisits env sc s ++ match orReturn (decodeSect env sc) s with
    | .ok _ t => sectsVisits env rest t
    | _ => []

def recordVisits (env : DecEnv) (m : DnsMsg) : List (Sect × DecState) :=
  match decodeFront env (initState m) with
  | .ok _ t => sectsVisits env [.an, .ns, .ar] t
  | _ => []

end DnsPkt.MessageDecoder
