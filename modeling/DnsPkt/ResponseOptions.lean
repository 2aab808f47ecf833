import DnsPkt.AnswerArguments
import DnsPkt.QueryTool
import DnsPkt.ReportText

/-!
# Options of the response generator

`gen_parse_argv` of `dns_gen.c` in the mode `resp`, with the records that
`add_sect` makes while the options are read, and `run_resp`. The buffer `tmp` of
`add_sect` holds what was on the stack, which is given for each option.
-/

set_option autoImplicit false

namespace DnsPkt.ResponseOptions
open DnsPkt.CheckedRun DnsPkt.CheckedRun.Run DnsPkt.Octets DnsPkt.Protocol DnsPkt.MessageStore
open DnsPkt.ReportText DnsPkt.AddressText DnsPkt.AnswerArguments DnsPkt.MessageDecoder
open DnsPkt.QueryFlags DnsPkt.QueryTool
open DnsPkt.GeneratedFrame (ethipudpLen pcapStartPkt pcapEndPkt)

def isSpace (ch : UInt8) : Bool := ch = 32 || 9 ≤ ch && ch ≤ 13

def digitOf (ch : UInt8) : ℕ :=
  if isNumeral ch then ch.toNat-48
  else if 97 ≤ ch ∧ ch ≤ 122 then ch.toNat-87
  else if 65 ≤ ch ∧ ch ≤ 90 then ch.toNat-55
  else 36

def numberOf (base : ℕ) (str : Bytes) : ℕ :=
  (str.takeWhile fun ch => digitOf ch < base).foldl (fun v ch => v*base+digitOf ch) 0

/-- The base that a text tells by its first digits, and the text behind the mark. -/
def baseOf : Bytes → ℕ × Bytes
  | 48 :: x :: d :: rest =>
    if (x = 120 ∨ x = 88) ∧ digitOf d < 16 then (16, d :: rest) else (8, 48 :: x :: d :: rest)
  | 48 :: rest => (8, 48 :: rest)
  | str => (10, str)

/-- `strtol`; base zero stands for the base that the text tells. -/
def strtol (str : Bytes) (base : ℕ) : ℤ :=
  let str := str.dropWhile isSpace
  let digits := if str.head? = some 45 ∨ str.head? = some 43 then str.drop 1 else str
  let (base, digits) := if base = 0 then baseOf digits else (base, digits)
  let val : ℤ := numberOf base digits
  max (-2^63) (min (2^63-1) (if str.head? = some 45 then -val else val))

abbrev dnsFlagsQr : UInt16 := 0x8000
abbrev dnsClassIn : UInt16 := 1

structure RespGen extends toQuery : QueryFlags.DnsGen where
  id : UInt16
  ttl : UInt32
  output : Str
  usePcapng : Bool

theorem length_freshBuf : (List.replicate dnsMaxPdusize (0 : UInt8)).length = dnsMaxPdusize :=
  List.length_replicate

/-- `gen_create`; `base` is the address of the strings of the message. -/
def genCreate (base : ℕ) : RespGen where
  pktBuf := List.replicate dnsMaxPdusize 0
  pktLen := 0
  size := length_freshBuf
  dnsName := []
  dnsType := 0
  dnsClass := 0
  dnsFlags := 0
  msg := zeroMsg base
  msgLen := 0
  tidSent := 0
  useTcp := false
  id := 0
  ttl := 0
  output := none
  usePcapng := false

def setDnsName (gen : RespGen) (value : Str) : ℤ × RespGen :=
  if dnsNameMaxstr ≤ value.bytes.length then (-1, gen)
  else (0, { gen with dnsName := value.bytes })

def setFlags (gen : RespGen) (value : Str) : ℤ × RespGen :=
  let r := setDnsFlags gen.toQuery value.bytes
  (r.1, { gen with toQuery := r.2 })

def setId (gen : RespGen) (value : Str) : ℤ × RespGen :=
  let val := strtol value.bytes 0
  if val < 0 ∨ 0xffff < val then (-1, gen) else (0, { gen with id := UInt16.ofNat val.toNat })

def dnsGetClass (str : Bytes) : UInt16 :=
  if fold str = fold (ascii "IN") then 1
  else if fold str = fold (ascii "CS") then 2
  else if fold str = fold (ascii "CH") then 3
  else if fold str = fold (ascii "HS") then 4
  else if fold str = fold (ascii "ANY") then 255
  else 0

def sliceIsnumeric (str : Bytes) : Bool := str ≠ [] && str.all isNumeral

structure Attrs where
  rrClass : UInt16
  ttl : UInt32

/-- One attribute. Fifteen bytes of it are copied, as many as the size of a slice lets be.
The number ends with the attribute, which no digit follows. -/
def setAttr (a : Attrs) (attr : Bytes) : Attrs :=
  let dnsClass := dnsGetClass (attr.take 15)
  if dnsClass ≠ 0 then { a with rrClass := dnsClass }
  else if sliceIsnumeric attr then { a with ttl := UInt32.ofNat (strtol attr 10).toNat }
  else a

def setAttrs : ℕ → Slice → Attrs → Attrs
  | 0, _, a => a
  | k+1, str, a =>
    if str.getD [] = [] then a else
    let (attr, str) := sliceSplitch str 32
    setAttrs k str (setAttr a ((sliceTrim attr).getD []))

def tmpRdata (rrType : ℕ) (tmp : Bytes) : Rdata Str :=
  if rrType = dnsTypeA then
    { zeroRdata none with a := Vector.ofFn fun i : Fin 4 => tmp.getD i 0 }
  else if rrType = dnsTypeAaaa then
    { zeroRdata none with aaaa := Vector.ofFn fun i : Fin 16 => tmp.getD i 0 }
  else { zeroRdata none with cname := some ⟨cstr tmp, zero_notMem_cstr _⟩ }

/-- The record of an argument before its defaults, if the address is not too long. -/
def answerRr (value : Str) (tmp : AnswerBuf) : Option (DnsRr Str) :=
  let (name, str) := sliceSplitch (some value.bytes) 32
  let name := (sliceTrim name).getD []
  if dnsNameMaxstr < name.length then none else
  let r := ipstrDecode name tmp.toList (dnsNameMaxlen+1)
  let a := setAttrs value.bytes.length str ⟨0, 0⟩
  some ⟨none, UInt16.ofNat r.1, a.rrClass, a.ttl, 0, tmpRdata r.1 r.2⟩

def loadDefaults (gen : RespGen) (rr : DnsRr Str) : DnsRr Str :=
  { rr with
    name := some ⟨cstr gen.dnsName, zero_notMem_cstr _⟩
    rrClass := if rr.rrClass = 0 then gen.dnsClass else rr.rrClass
    ttl := if rr.ttl = 0 then gen.ttl else rr.ttl }

def sectCode : Sect → ℤ
  | .an => 1
  | .ns => 2
  | .ar => 3

def addSect (gen : RespGen) (sc : Sect) (value : Str) (tmp : AnswerBuf) : ℤ × RespGen :=
  match answerRr value tmp with
  | none => (-1, gen)
  | some rr =>
    let r := dnsAddRr gen.msg (sectCode sc) (some (loadDefaults gen rr))
    (r.1, { gen with msg := r.2 })

abbrev optEof : ℤ := -2
abbrev optUnsupp : ℤ := -3
abbrev optMissval : ℤ := -4

inductive RespOpt where
  | id
  | name
  | flags
  | sect (sc : Sect)
  | output
  | pcapng
  deriving DecidableEq

def RespOpt.text : RespOpt → Bytes
  | .id => ascii "--id"
  | .name => ascii "--name"
  | .flags => ascii "--flags"
  | .sect .an => ascii "--answer"
  | .sect .ns => ascii "--authority"
  | .sect .ar => ascii "--additional"
  | .output => ascii "--output"
  | .pcapng => ascii "--pcapng"

def RespOpt.hasArg : RespOpt → Bool
  | .pcapng => false
  | _ => true

def respOpts : List RespOpt :=
  [.id, .name, .flags, .sect .an, .sect .ns, .sect .ar, .output, .pcapng]

def findOpt (name : Bytes) : Option RespOpt := respOpts.find? fun opt => name = opt.text

inductive Next where
  | stop (rc : ℤ)
  | opt (opt : RespOpt) (value : Str) (rest : List CStr)

def cmdArgvNext : List CStr → Next
  | [] => .stop optEof
  | name :: rest => match findOpt name.bytes with
    | none => .stop optUnsupp
    | some opt =>
      if opt.hasArg then match rest with
        | [] => .stop optMissval
        | value :: rest =>
          if value.bytes.head? = some 45 then .stop optMissval else .opt opt (some value) rest
      else .opt opt none rest

def handle (gen : RespGen) (opt : RespOpt) (value : Str) (tmp : AnswerBuf) : ℤ × RespGen :=
  match opt with
  | .id => setId gen value
  | .name => setDnsName gen value
  | .flags => setFlags gen value
  | .sect sc => addSect gen sc value tmp
  | .output => (0, { gen with output := value })
  | .pcapng => (0, { gen with usePcapng := true })

def parseOpts (stack : ℕ → AnswerBuf) : ℕ → List CStr → RespGen → ℤ × RespGen
  | 0, _, gen => (optEof, gen)
  | k+1, argv, gen => match cmdArgvNext argv with
    | .stop rc => (rc, gen)
    | .opt opt value rest =>
      let r := handle gen opt value (stack k)
      if r.1 < 0 then r else parseOpts stack k rest r.2

def dnsCntRr (m : DnsMsg) : ℕ := m.an.count+m.ns.count+m.ar.count

def genParseArgv (stack : ℕ → AnswerBuf) (argv : List CStr) (gen : RespGen) : ℤ × RespGen :=
  let gen := { gen with dnsClass := dnsClassIn }
  let (rc, gen) := parseOpts stack (argv.length+1) argv gen
  if rc ≠ optEof then (rc, gen)
  else if gen.dnsName = [] ∨ dnsCntRr gen.msg = 0 ∨ gen.output = none then (-1, gen)
  else (0, gen)

def onPacket (f : GeneratedFrame.DnsGen → GeneratedFrame.DnsGen) (gen : QueryFlags.DnsGen) :
    QueryFlags.DnsGen := { gen with toDnsGen := f gen.toDnsGen }

/-- `run_resp` up to the file that the packet is written to. -/
def runResp (id : UInt16) : Tool Unit := do
  modify fun gen => { gen with msg := dnsMsgInit gen.msg id dnsFlagsQr }
  modify (onPacket pcapStartPkt)
  genEncDnsmsg
  modify (onPacket pcapEndPkt)

/-- The bytes of the message behind the headers. -/
def packetMsg (gen : QueryFlags.DnsGen) : Bytes :=
  slice gen.pktBuf ethipudpLen (gen.pktLen-ethipudpLen)

/-- The message that the tool makes of its options, if it accepts them. -/
def respMessage (base : ℕ) (stack : ℕ → AnswerBuf) (argv : List CStr) : Option Bytes :=
  let (rc, gen) := genParseArgv stack argv (genCreate base)
  if rc ≠ 0 then none else
  match runResp gen.id gen.toQuery with
  | .ok _ t => some (packetMsg t)
  | _ => none

end DnsPkt.ResponseOptions
