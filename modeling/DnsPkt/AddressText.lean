import DnsPkt.ReportText
import DnsPkt.StepMachine

/-!
# Texts of addresses

The text codec of IPv4 and IPv6 addresses. An encoder gives the text it writes
without its terminator, and the empty text where it refuses the buffer. A
decoder reads one character per turn and gives its return value and the
destination as it leaves it. Nothing is said here of the bytes outside of the
text: a scan that is sent back before its text ends.
-/

set_option autoImplicit false

namespace DnsPkt.AddressText
open DnsPkt.Octets DnsPkt.ReportText DnsPkt.StepMachine

abbrev Ip4Addr := Vector UInt8 4
abbrev Ip6Addr := Vector UInt8 16

abbrev ip6AddrStrlen : ℕ := 46

abbrev ip6StrAddbrack : ℕ := 1
abbrev ip6StrNoipv4 : ℕ := 2
abbrev ip6StrStripv4 : ℕ := 4

abbrev sizeMax : ℕ := 2^64-1

def uint16Toax (val : ℕ) : Bytes :=
  (if 0x1000 ≤ val then [hexDigit ((val >>> 12) % 16)] else []) ++
  (if 0x100 ≤ val then [hexDigit ((val >>> 8) % 16)] else []) ++
  (if 0x10 ≤ val then [hexDigit ((val >>> 4) % 16)] else []) ++ [hexDigit (val % 16)]

def hexToNibble (ch : UInt8) : ℕ := (ch.toNat % 16+ch.toNat / 64+ch.toNat / 64 * 8) % 256

def isNumeral (ch : UInt8) : Bool := 48 ≤ ch && ch ≤ 57

def isHex (ch : UInt8) : Bool := isNumeral ch || 65 ≤ ch && ch ≤ 70 || 97 ≤ ch && ch ≤ 102

def ip4StrEncode (addr : Bytes) (len : ℕ) : Bytes :=
  if len < ip4AddrStrlen then [] else ip4Str addr

def groupAt (addr : Bytes) (i : ℕ) : ℕ := (addr.getD i 0).toNat * 256+(addr.getD (i+1) 0).toNat

structure ZeroScan where
  zeroPos : ℤ
  zeroLen : ℕ
  curPos : ℤ
  curLen : ℕ
  deriving DecidableEq, Repr

def ZeroScan.check (s : ZeroScan) : ZeroScan :=
  if s.zeroLen < s.curLen then { s with zeroPos := s.curPos, zeroLen := s.curLen } else s

def ZeroScan.visit (s : ZeroScan) (i val : ℕ) : ZeroScan :=
  if val = 0 then
    { s with curPos := if s.curPos = -1 then i else s.curPos, curLen := s.curLen+2 }
  else { s.check with curPos := -1, curLen := 0 }

def zeroScan (addr : Bytes) : ℕ → ZeroScan
  | 0 => ⟨-1, 0, -1, 0⟩
  | k+1 => (zeroScan addr k).visit (2*k) (groupAt addr (2*k))

def zeroRun (addr : Bytes) : ℤ × ℕ :=
  let s := (zeroScan addr 8).check
  (if s.zeroLen ≤ 2 then -1 else s.zeroPos, s.zeroLen)

/-- The loop over the groups from byte `i` on. The first argument bounds the turns. -/
def groups (addr : Bytes) (zeroPos : ℤ) (zeroLen addrLen : ℕ) : ℕ → ℕ → Bytes
  | 0, _ => []
  | k+1, i =>
    if i < addrLen then
      if i = zeroPos then
        if 16 ≤ i+zeroLen then [58, 58]
        else [58, 58] ++ uint16Toax (groupAt addr (i+zeroLen)) ++
          groups addr zeroPos zeroLen addrLen k (i+zeroLen+2)
      else (if i ≠ 0 then [58] else []) ++ uint16Toax (groupAt addr i) ++
        groups addr zeroPos zeroLen addrLen k (i+2)
    else []

def isMixed (addr : Bytes) : Bool :=
  let (zeroPos, zeroLen) := zeroRun addr
  zeroPos = 0 && ((zeroLen = 10 && addr.getD 10 0 = 255 && addr.getD 11 0 = 255) || zeroLen = 12)

def ip6StrEncode (addr : Bytes) (flags len : ℕ) : Bytes :=
  let bracket := flags &&& ip6StrAddbrack ≠ 0
  if len < ip6AddrStrlen+(if bracket then 2 else 0) then [] else
  let (zeroPos, zeroLen) := zeroRun addr
  let mixed := flags &&& ip6StrNoipv4 = 0 && isMixed addr
  if mixed && flags &&& ip6StrStripv4 ≠ 0 then ip4StrEncode (addr.drop 12) len else
  let text := (if bracket then [91] else []) ++
    groups addr zeroPos zeroLen (if mixed then 12 else 16) 8 0
  let text := if mixed then
      let text := text ++ (if zeroLen = 10 then [58] else [])
      text ++ ip4StrEncode (addr.drop 12) (len-text.length)
    else text
  text ++ (if bracket then [93] else [])

structure Ip4Scan where
  strPtr : ℕ
  strEnd : ℕ
  dst : Bytes
  dstPtr : ℕ
  numDigit : ℕ
  numDot : ℕ
  acc : ℕ
  deriving DecidableEq, Repr

def Ip4Scan.finish (s : Ip4Scan) : ℕ × Bytes :=
  if s.numDot ≠ 3 ∨ s.numDigit = 0 then (0, s.dst)
  else (s.strPtr, patch s.dst s.dstPtr [UInt8.ofNat s.acc])

def ip4Step (str : Bytes) (s : Ip4Scan) : Turn Ip4Scan (ℕ × Bytes) :=
  if s.strPtr < s.strEnd then
    let ch := str.getD s.strPtr 0
    let s := { s with strPtr := s.strPtr+1 }
    if isNumeral ch then
      let numDigit := s.numDigit+1
      if 3 < numDigit then .done (sizeMax, s.dst) else
      let acc := s.acc*10+(ch.toNat-48)
      if 255 < acc then .done (0, s.dst) else
      .next { s with numDigit := numDigit, acc := acc }
    else if ch = 46 then
      if s.numDigit = 0 ∨ 3 ≤ s.numDot then .done (0, s.dst) else
      .next { s with dst := patch s.dst s.dstPtr [UInt8.ofNat s.acc], dstPtr := s.dstPtr+1,
                     numDot := s.numDot+1, acc := 0, numDigit := 0 }
    else .next { s with strEnd := 0 }
  else .done s.finish

def ip4StrDecode (str dst : Bytes) : ℕ × Bytes :=
  run (ip4Step str) (0, dst) (str.length+1) ⟨0, str.length, dst, 0, 0, 0, 0⟩

structure Ip6Scan where
  strPtr : ℕ
  strEnd : ℕ
  segPtr : ℕ
  dst : Bytes
  dstPtr : ℕ
  zeroPtr : Option ℕ
  numHex : ℕ
  numSeg : ℕ
  acc : ℕ
  deriving DecidableEq, Repr

def Ip6Scan.store (s : Ip6Scan) : Ip6Scan :=
  { s with dst := patch s.dst s.dstPtr (encU16 (UInt16.ofNat s.acc)), dstPtr := s.dstPtr+2 }

def zeroFill (dst : Bytes) (zeroPtr dstPtr : ℕ) : Bytes :=
  let zeroMove := dstPtr-zeroPtr
  let moved := patch dst (16-zeroMove) (slice dst zeroPtr zeroMove)
  patch moved zeroPtr (List.replicate (16-dstPtr) 0)

def Ip6Scan.finish (s : Ip6Scan) : ℕ × Bytes :=
  let s := if s.numHex ≠ 0 then { s.store with numSeg := s.numSeg+1 } else s
  match s.zeroPtr with
  | some z => (s.strPtr, zeroFill s.dst z s.dstPtr)
  | none => if s.numSeg ≠ 8 then (0, s.dst) else (s.strPtr, s.dst)

def Ip6Scan.nextSegment (s : Ip6Scan) : Ip6Scan :=
  { s with numHex := 0, acc := 0, segPtr := s.strPtr+1, numSeg := s.numSeg+1 }

def Ip6Scan.gap (str : Bytes) (s : Ip6Scan) : Turn Ip6Scan (ℕ × Bytes) :=
  if s.strPtr < s.strEnd ∧ str.getD s.strPtr 0 = 58 then
    if s.zeroPtr ≠ none then .done (0, s.dst)
    else .next { s with zeroPtr := some s.dstPtr, strPtr := s.strPtr+1 }.nextSegment
  else .next s.nextSegment

def Ip6Scan.colon (str : Bytes) (s : Ip6Scan) : Turn Ip6Scan (ℕ × Bytes) :=
  if s.numHex ≠ 0 then
    if 7 ≤ s.numSeg then .done (0, s.dst) else s.store.gap str
  else s.gap str

def Ip6Scan.dot (str : Bytes) (s : Ip6Scan) : Turn Ip6Scan (ℕ × Bytes) :=
  if 6 < s.numSeg then .done (0, s.dst) else
  let (n, quad) := ip4StrDecode (slice str s.segPtr (s.strEnd-s.segPtr)) (s.dst.drop s.dstPtr)
  let strPtr := (s.segPtr+n) % 2^64
  let dst := s.dst.take s.dstPtr ++ quad
  if strPtr = s.segPtr then .done (0, dst) else
  .next { s with numHex := 0, strPtr := strPtr, dst := dst, dstPtr := s.dstPtr+4,
                 numSeg := s.numSeg+2, strEnd := 0 }

def ip6Step (str : Bytes) (s : Ip6Scan) : Turn Ip6Scan (ℕ × Bytes) :=
  if s.strPtr < s.strEnd then
    let ch := str.getD s.strPtr 0
    let s := { s with strPtr := s.strPtr+1 }
    if isHex ch then
      if 4 < s.numHex+1 then .done (0, s.dst) else
      .next { s with numHex := s.numHex+1, acc := s.acc*16 ||| hexToNibble ch }
    else if ch = 58 then s.colon str
    else if ch = 46 then s.dot str
    else .next { s with strEnd := 0 }
  else .done s.finish

def ip6StrDecode (str dst : Bytes) : ℕ × Bytes :=
  run (ip6Step str) (0, dst) (str.length+1) ⟨0, str.length, 0, dst, 0, none, 0, 0, 0⟩

end DnsPkt.AddressText
