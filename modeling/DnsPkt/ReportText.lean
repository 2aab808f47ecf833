import DnsPkt.Protocol

/-!
# Texts of the validation report

The string tables and number formats that the validator prints with. All
texts are byte strings without terminator.
-/

set_option autoImplicit false

namespace DnsPkt.ReportText
open DnsPkt.Octets DnsPkt.Protocol

def ascii (s : String) : Bytes := s.toList.map fun c => UInt8.ofNat c.toNat

/-- The decimal text of `%d`, `%u`, `%zu` and `int_tostr` for a value that is not negative. -/
def decimal (n : ℕ) : Bytes := (Nat.toDigits 10 n).map fun c => UInt8.ofNat c.toNat

def hexDigit (n : ℕ) : UInt8 := UInt8.ofNat (if n < 10 then 48+n else 87+n)

def hex4 (n : ℕ) : Bytes :=
  [hexDigit (n / 4096 % 16), hexDigit (n / 256 % 16), hexDigit (n / 16 % 16), hexDigit (n % 16)]

def dnsEcText : ℕ → Option String
  | 0 => "Okay"
  | 1 => "header len"
  | 2 => "Invalid compression pointer (outside range)"
  | 3 => "Invalid compression pointer (loop detected)"
  | 4 => "Name length bigger than pkt size"
  | 5 => "Name bigger than buf size"
  | 6 => "Name missing null char"
  | 7 => "Truncated packet"
  | 8 => "RDATA len mismatch"
  | 9 => "field not allowed"
  | 10 => "No space in buffer"
  | 11 => "Invalid opcode"
  | 12 => "Invalid rcode"
  | _ => none

def dnsEcTostr (ec : ℤ) : Bytes :=
  match dnsEcText ec.natAbs with
  | some s => ascii s
  | none =>
    if dnsEcIsrow ≤ ec.natAbs then decimal (ec.natAbs-dnsEcIsrow+1) else decimal ec.natAbs

def decCodeTostr : DnsLocation → Bytes
  | .none => ascii "NONE" | .pdu => ascii "PDU" | .hdr => ascii "HDR" | .qd => ascii "Question"
  | .an => ascii "Answer" | .ns => ascii "Authority" | .ar => ascii "Additional"
  | .rr => ascii "Record" | .rdata => ascii "RDATA" | .name => ascii "Name" | .a => ascii "A"
  | .tns => ascii "NS" | .cname => ascii "CNAME" | .soa => ascii "SOA" | .ptr => ascii "PTR"
  | .hinfo => ascii "HINFO" | .mx => ascii "MX" | .txt => ascii "TXT" | .aaaa => ascii "AAAA"
  | .srv => ascii "SRV" | .opt => ascii "OPT" | .any => ascii "ANY"

def dnsClassTostr (code : ℕ) : Bytes :=
  match code with
  | 1 => ascii "IN" | 3 => ascii "CH" | 4 => ascii "HS" | 254 => ascii "NONE" | 255 => ascii "*"
  | n => decimal n

def dnsTypeTostr (code : ℕ) : Bytes :=
  match code with
  | 1 => ascii "A" | 2 => ascii "NS" | 5 => ascii "CNAME" | 6 => ascii "SOA" | 12 => ascii "PTR"
  | 15 => ascii "MX" | 16 => ascii "TXT" | 28 => ascii "AAAA" | 33 => ascii "SRV"
  | 41 => ascii "OPT" | 252 => ascii "AXFR" | 255 => ascii "ANY"
  | n => decimal n

def opcodeTostr (opcode : ℕ) : Bytes :=
  match opcode with
  | 0 => ascii "QUERY" | 1 => ascii "IQUERY" | 2 => ascii "STATUS" | 4 => ascii "NOTIFY"
  | 5 => ascii "UPDATE"
  | n => decimal n

def rcodeTostr (rcode : ℕ) : Bytes :=
  match rcode with
  | 0 => ascii "NoError" | 1 => ascii "FormErr" | 2 => ascii "ServFail" | 3 => ascii "NXDomain"
  | 4 => ascii "NotImp" | 5 => ascii "Refused" | 6 => ascii "YXDomain" | 7 => ascii "YXRRSet"
  | 8 => ascii "NXRRSet" | 9 => ascii "NotAuth" | 10 => ascii "NotZone" | 16 => ascii "BADSIG"
  | 17 => ascii "BADKEYA" | 18 => ascii "BADTIME" | 19 => ascii "BADMODE" | 20 => ascii "BADNAMEA"
  | 21 => ascii "BADALGA" | 22 => ascii "BADTRUC"
  | n => decimal n

/-- Decimal text of an octet, with the divisions as multiply and shift. -/
def uint8Toa (val : UInt8) : Bytes :=
  let v := val.toNat
  if v < 10 then [UInt8.ofNat (v+48)]
  else if v < 100 then
    let d1 := (v*205) >>> 11
    let d2 := v-d1*10
    [UInt8.ofNat (d1+48), UInt8.ofNat (d2+48)]
  else
    let d1 := (v*164) >>> 14
    let rem := v-d1*100
    let d2 := (rem*205) >>> 11
    let d3 := rem-d2*10
    [UInt8.ofNat (d1+48), UInt8.ofNat (d2+48), UInt8.ofNat (d3+48)]

abbrev ip4AddrStrlen : ℕ := 16

/-- The text `ip4_str_encode` writes for the first four bytes of `addr`. -/
def ip4Str (addr : Bytes) : Bytes :=
  uint8Toa (addr.getD 0 0) ++ [46] ++ uint8Toa (addr.getD 1 0) ++ [46] ++
    uint8Toa (addr.getD 2 0) ++ [46] ++ uint8Toa (addr.getD 3 0)

/-- `sbuf_puticm`: append with a separator unless the buffer is empty, if it fits. -/
def sbufPuticm (cap : ℕ) (buf : Bytes) (ch : UInt8) (mem : Bytes) : Bytes :=
  if buf = [] then (if mem.length ≤ cap then mem else buf)
  else if buf.length+(mem.length+1) ≤ cap then buf ++ ch :: mem else buf

def sbufPuts (cap : ℕ) (buf mem : Bytes) : Bytes :=
  if buf.length+mem.length ≤ cap then buf ++ mem else buf

theorem decimal_length_le (n k : ℕ) (hk : 0 < k) (h : n < 10^k) : (decimal n).length ≤ k := by
  simpa [decimal] using (Nat.length_toDigits_le_iff (by decide) hk).mpr h

theorem uint8Toa_length_le (val : UInt8) : (uint8Toa val).length ≤ 3 := by
  simp only [uint8Toa]
  split_ifs <;> simp

theorem ip4Str_length_le (addr : Bytes) : (ip4Str addr).length ≤ 15 := by
  have h0 := uint8Toa_length_le (addr.getD 0 0)
  have h1 := uint8Toa_length_le (addr.getD 1 0)
  have h2 := uint8Toa_length_le (addr.getD 2 0)
  have h3 := uint8Toa_length_le (addr.getD 3 0)
  simp only [ip4Str, List.length_append, List.length_singleton]
  omega

end DnsPkt.ReportText
