import DnsPkt.ByteOrder
import DnsPkt.CheckedRun

/-!
# Capture files

The reader and the writer of `pcap.c`, for the legacy format and for pcapng.
A file is a byte sequence with a position: reads stop at its end, seeks go
anywhere, and nothing else can fail. Integers are stored by a little-endian
host, the reader swaps those of a file from the other kind.
-/

set_option autoImplicit false

namespace DnsPkt.CaptureFile
open DnsPkt.CheckedRun DnsPkt.CheckedRun.Run DnsPkt.Octets DnsPkt.ByteOrder

abbrev pcapFail : ℤ := -1
abbrev pcapEof : ℤ := -2

abbrev pcapMagicLeUsec : ℕ := 0xA1B2C3D4
abbrev pcapMagicLeNsec : ℕ := 0xA1B23C4D
abbrev pcapMagicBeUsec : ℕ := 0xD4C3B2A1
abbrev pcapMagicBeNsec : ℕ := 0x4D3C2B1A
abbrev pcapShbType : ℕ := 0x0A0D0D0A
abbrev pcapIdbType : ℕ := 0x00000001
abbrev pcapSpbType : ℕ := 0x00000003
abbrev pcapEpbType : ℕ := 0x00000006
abbrev pcapDsbType : ℕ := 0x0000000A
abbrev pcapBomNative : ℕ := 0x1A2B3C4D
abbrev pcapBomSwap : ℕ := 0x4D3C2B1A
abbrev pcapSnaplen : ℕ := 65535
abbrev linktypeEthernet : ℕ := 1

def pcapIslg (magic : ℕ) : Bool :=
  magic = pcapMagicLeUsec ∨ magic = pcapMagicLeNsec ∨ magic = pcapMagicBeUsec ∨
    magic = pcapMagicBeNsec

def pcapIsng (magic : ℕ) : Bool := magic = pcapShbType

def pcapIsnative (magic : ℕ) : Bool := magic = pcapMagicLeUsec ∨ magic = pcapMagicLeNsec

def pcapBomIsng (bom : ℕ) : Bool := bom = pcapBomNative ∨ bom = pcapBomSwap

def pcapBomIsnative (bom : ℕ) : Bool := bom = pcapBomNative

def calcPadlen (capLen : ℕ) : ℕ := (4-capLen % 4) % 4

/-- `a - b` kept in a `uint32_t`. -/
def sub32 (a b : ℕ) : ℕ := (((a : ℤ)-b) % 2^32).toNat

/-- A `uint32_t` returned as an `int`. -/
def toInt (v : ℕ) : ℤ := if v < 2^31 then v else v-2^32

/-- The fields of `struct pcap_file` that reading depends on. -/
structure PcapFile where
  pos : ℕ
  isNg : Bool
  mustSwap : Bool
  haveShb : Bool
  haveIdb : Bool
  sysErr : Bool
  haveEof : Bool
  deriving DecidableEq, Repr

inductive Endless where
  | rounds
  deriving DecidableEq, Repr

abbrev Rd := Run PcapFile ℤ Endless

section Reader

variable (data : Bytes)

def pcapReadData (len : ℕ) : Rd Bytes := fun f =>
  let got := slice data f.pos len
  let g := { f with pos := f.pos+got.length }
  if got.length = len then .ok got g
  else if got = [] then .exit pcapEof { g with haveEof := true }
  else .exit pcapFail g

def pcapDataSkip (len : ℕ) : Rd Unit := modify fun f => { f with pos := f.pos+len }

def pcapDataRewind (len : ℕ) : Rd Unit := modify fun f => { f with pos := f.pos-len }

def u32 (b : Bytes) (i : ℕ) : Rd ℕ := fun f => .ok (loadAs f.mustSwap (slice b i 4)) f

/-- A call whose failure makes the caller return `c`. -/
def orLeave {α : Type} (c : ℤ) (x : Rd α) : Rd α := fun f =>
  match x f with
  | .exit _ g => .exit c g
  | o => o

def pcapReadHdr : Rd Unit := do
  let b ← pcapReadData data 24
  when (¬ pcapIsnative (load (slice b 0 4))) (modify fun f => { f with mustSwap := true })

def pcapReadRec (bufLen : ℕ) : Rd Bytes := do
  let b ← pcapReadData data 16
  let inclLen ← u32 b 8
  when (bufLen < inclLen) (exit pcapFail)
  pcapReadData data inclLen

def pcapReadShb : Rd Unit := do
  let b ← pcapReadData data 24
  modify fun f => { f with haveShb := true }
  let bom := load (slice b 8 4)
  when (¬ pcapBomIsng bom) (exit pcapFail)
  modify fun f => { f with mustSwap := !pcapBomIsnative bom }
  let totLen ← u32 b 4
  when (totLen < 24) (exit pcapFail)
  pcapDataSkip (totLen-24)

def pcapReadIdb : Rd Unit := do
  let b ← pcapReadData data 16
  modify fun f => { f with haveIdb := true }
  let totLen ← u32 b 4
  when (totLen < 16) (exit pcapFail)
  pcapDataSkip (totLen-16)

def pcapReadSpb (bufLen : ℕ) : Rd Bytes := do
  let f ← get
  when (¬ f.haveIdb) (exit 0)
  let b ← orLeave 0 (pcapReadData data 12)
  let totLen ← u32 b 4
  when (totLen < 12) (exit 0)
  let capLen := sub32 totLen 16
  when (bufLen < capLen) (exit 0)
  let pkt ← orLeave 0 (pcapReadData data capLen)
  pcapDataSkip (sub32 totLen (12+capLen))
  pure pkt

def pcapReadEpb (bufLen : ℕ) : Rd Bytes := do
  let f ← get
  when (¬ f.haveIdb) (exit 0)
  let b ← orLeave 0 (pcapReadData data 28)
  let totLen ← u32 b 4
  let inclLen ← u32 b 20
  when (totLen < 28) (exit 0)
  when (bufLen < inclLen) (exit 0)
  let pkt ← orLeave 0 (pcapReadData data inclLen)
  pcapDataSkip (sub32 totLen (28+inclLen))
  pure pkt

def pcapReadDsb (bufLen : ℕ) : Rd Bytes := do
  let f ← get
  when (¬ f.haveShb) (exit 0)
  let b ← orLeave 0 (pcapReadData data 16)
  let totLen ← u32 b 4
  when (totLen < 16) (exit 0)
  let capLen := sub32 totLen 20
  when (bufLen < capLen) (exit 0)
  let pkt ← orLeave 0 (pcapReadData data capLen)
  pcapDataSkip (sub32 totLen (16+capLen))
  pure pkt

/-- What the readers of simple packet blocks and of secrets do alike, for a header of `len`
bytes. -/
def readTail (ready : PcapFile → Bool) (len bufLen : ℕ) : Rd Bytes := do
  let f ← get
  when (¬ ready f) (exit 0)
  let b ← orLeave 0 (pcapReadData data len)
  let totLen ← u32 b 4
  when (totLen < len) (exit 0)
  let capLen := sub32 totLen (len+4)
  when (bufLen < capLen) (exit 0)
  let pkt ← orLeave 0 (pcapReadData data capLen)
  pcapDataSkip (sub32 totLen (len+capLen))
  pure pkt

theorem pcapReadSpb_tail (bufLen : ℕ) :
    pcapReadSpb data bufLen = readTail data PcapFile.haveIdb 12 bufLen := rfl

theorem pcapReadDsb_tail (bufLen : ℕ) :
    pcapReadDsb data bufLen = readTail data PcapFile.haveShb 16 bufLen := rfl

def pcapSkipBlock : Rd Unit := do
  let b ← pcapReadData data 8
  let totLen ← u32 b 4
  when (totLen < 8) (exit pcapFail)
  pcapDataSkip (totLen-8)

/-- The type of the next block, or the code of the failure to read it. -/
def pcapPeekBlock : Rd ℤ :=
  call do
    let b ← pcapReadData data 4
    pcapDataRewind 4
    let type ← u32 b 0
    pure (toInt type)

/-- One round of the loop of `pcap_read_xpb`: the data that it returns, if it
does not go on with the next block. -/
def xpbRound (bufLen : ℕ) : Rd (Option Bytes) := do
  let blockType ← pcapPeekBlock data
  when (blockType < 0) (exit 0)
  if blockType = pcapShbType then do
    orLeave (-1) (pcapReadShb data)
    pure none
  else if blockType = pcapIdbType then do
    orLeave (-1) (pcapReadIdb data)
    pure none
  else if blockType = pcapSpbType then do
    let pkt ← pcapReadSpb data bufLen
    pure (some pkt)
  else if blockType = pcapEpbType then do
    let pkt ← pcapReadEpb data bufLen
    pure (some pkt)
  else if blockType = pcapDsbType then do
    let pkt ← pcapReadDsb data bufLen
    pure (some pkt)
  else do
    orLeave (-1) (pcapSkipBlock data)
    pure none

def pcapReadXpb (bufLen : ℕ) : ℕ → Rd Bytes
  | 0 => fault .rounds
  | k+1 => do
    match ← xpbRound data bufLen with
    | some pkt => pure pkt
    | none => pcapReadXpb bufLen k

def readPkt (bufLen : ℕ) : Rd Bytes := fun f =>
  if f.isNg then pcapReadXpb data bufLen (data.length+1) f else pcapReadRec data bufLen f

/-- `pcap_read`: the bytes it returned in the buffer, whose number is its result. -/
def pcapRead (bufLen : ℕ) : Rd Bytes := fun f =>
  if f.sysErr ∨ f.haveEof then .ok [] f
  else match readPkt data bufLen f with
    | .exit _ g => .ok [] g
    | o => o

def pcapDetectFmt : Rd Bool := do
  let b ← pcapReadData data 4
  modify fun f => { f with pos := 0 }
  let magic := load b
  if pcapIslg magic then pure false
  else if pcapIsng magic then pure true
  else exit pcapFail

/-- `pcap_open` for reading, without a format in its flags. -/
def pcapOpen : Option PcapFile :=
  let start : PcapFile := ⟨0, false, false, false, false, false, false⟩
  let setup : Rd Unit := do
    let isNg ← pcapDetectFmt data
    modify fun f => { f with isNg := isNg }
    if isNg then pcapReadShb data else pcapReadHdr data
  match setup start with
  | .ok _ f => some f
  | _ => none

/-- The loop `while (pcap_read(...) > 0)`, for a number of calls: the buffers
and the file behind the call that returned zero. -/
def readLoop (bufLen : ℕ) : ℕ → PcapFile → Option (List Bytes × PcapFile)
  | 0, _ => none
  | k+1, f => match pcapRead data bufLen f with
    | .ok [] g => some ([], g)
    | .ok pkt g => (readLoop bufLen k g).map fun r => (pkt :: r.1, r.2)
    | _ => none

def readFile (bufLen : ℕ) : Option (List Bytes × PcapFile) :=
  (pcapOpen data).bind (readLoop data bufLen (data.length+1))

end Reader

/-! The writer. With `swap` every integer has its bytes reversed; the code
writes without. -/

structure PcapOut where
  out : Bytes
  isNg : Bool
  useSpb : Bool
  haveIdb : Bool

section Writer

variable (swap : Bool)

def hdrBytes : Bytes :=
  fields swap [(4, pcapMagicLeUsec), (2, 2), (2, 4), (4, 0), (4, 0), (4, pcapSnaplen),
    (4, linktypeEthernet)]

def recBytes (ts : ℕ) (pkt : Bytes) : Bytes :=
  fields swap [(4, ts/1000000), (4, ts % 1000000), (4, pkt.length), (4, pkt.length)] ++ pkt

def shbBytes : Bytes :=
  fields swap [(4, pcapShbType), (4, 28), (4, pcapBomNative), (2, 1), (2, 0), (8, 2^64-1)] ++
    fields swap [(4, 28)]

def idbBytes : Bytes :=
  fields swap [(4, pcapIdbType), (4, 20), (2, linktypeEthernet), (2, 0), (4, pcapSnaplen)] ++
    fields swap [(4, 20)]

def totLen (hdr : ℕ) (pkt : Bytes) : ℕ := hdr+pkt.length+calcPadlen pkt.length+4

def spbBytes (pkt : Bytes) : Bytes :=
  fields swap [(4, pcapSpbType), (4, totLen 12 pkt), (4, pkt.length)] ++
    (pkt ++ (List.replicate (calcPadlen pkt.length) 0 ++ fields swap [(4, totLen 12 pkt)]))

def epbBytes (ts : ℕ) (pkt : Bytes) : Bytes :=
  fields swap [(4, pcapEpbType), (4, totLen 28 pkt), (4, 0), (4, ts/2^32), (4, ts),
      (4, pkt.length), (4, pkt.length)] ++
    (pkt ++ (List.replicate (calcPadlen pkt.length) 0 ++ fields swap [(4, totLen 28 pkt)]))

def pcapCreate (isNg useSpb : Bool) : PcapOut :=
  ⟨if isNg then shbBytes swap else hdrBytes swap, isNg, useSpb, false⟩

def pcapWriteXpb (w : PcapOut) (ts : ℕ) (pkt : Bytes) : PcapOut :=
  let w := if w.haveIdb then w else { w with out := w.out ++ idbBytes swap, haveIdb := true }
  { w with out := w.out ++ if w.useSpb then spbBytes swap pkt else epbBytes swap ts pkt }

def pcapWrite (w : PcapOut) (ts : ℕ) (pkt : Bytes) : PcapOut :=
  if w.isNg then pcapWriteXpb swap w ts pkt
  else { w with out := w.out ++ recBytes swap ts pkt }

def written (isNg useSpb : Bool) (pkts : List (ℕ × Bytes)) : Bytes :=
  (pkts.foldl (fun w p => pcapWrite swap w p.1 p.2) (pcapCreate swap isNg useSpb)).out

end Writer

end DnsPkt.CaptureFile
