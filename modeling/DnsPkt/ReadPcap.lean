import DnsPkt.CaptureRoundTrip
import DnsPkt.Inspector

/-!
# Reading a capture file

`run_readpcap` reads the packets of a file one after another and hands each to
the inspector. It stops at the first packet that is not valid, and it takes a
length of zero from `pcap_read` for the end of the file: a record that is
empty or too long for the buffer ends the loop as well, without an error. The
packet lies in a buffer in which earlier packets left their bytes, so a read of
`dns_validate` behind a packet finds some byte there.
-/

set_option autoImplicit false

namespace DnsPkt.ReadPcap
open DnsPkt.CheckedRun DnsPkt.CheckedRun.Run DnsPkt.Octets DnsPkt.ByteOrder DnsPkt.CaptureFile
open DnsPkt.CaptureProgress DnsPkt.CapturePackets DnsPkt.CaptureRoundTrip DnsPkt.Inspector

/-- The state of the program. The packets that were handed to
`insp_process_pkt` are kept to speak about them. -/
structure Reader where
  file : PcapFile
  insp : DnsInsp
  seen : List Bytes

abbrev Rp := Run Reader ℤ FrameFault

section Loop

variable (data : Bytes)

def nextPkt : Rp Bytes := fun s => match pcapRead data pktMaxsize s.file with
  | .ok buf g => .ok buf { s with file := g }
  | _ => .fault .rounds

def processPkt (buf : Bytes) : Rp ℤ := fun s => match inspProcessPkt buf s.insp with
  | .ok rc t => .ok rc { s with insp := t, seen := s.seen ++ [buf] }
  | .exit rc t => .ok rc { s with insp := t, seen := s.seen ++ [buf] }
  | .fault c => .fault c

def readpcapLoop : ℕ → Rp ℤ
  | 0 => fault .rounds
  | k+1 => do
    let buf ← nextPkt data
    if buf = [] then pure 0
    else do
      let rc ← processPkt buf
      if rc ≠ 0 then pure rc else readpcapLoop k

def runReadpcap : Rp ℤ := readpcapLoop data (data.length+1)

variable (stale : List Bytes → Bytes → ℤ)

end Loop

structure Record where
  tsSec : ℕ
  tsUsec : ℕ
  origLen : ℕ
  data : Bytes
  small : data.length < 2^32

def Record.bytes (swap : Bool) (r : Record) : Bytes :=
  fields swap [(4, r.tsSec), (4, r.tsUsec), (4, r.data.length), (4, r.origLen)] ++ r.data

def magicOf (header : Bytes) : ℕ := load (slice header 0 4)

/-- A file with one of the four magic numbers, in the byte order that the
number tells. -/
structure LegacyFile where
  header : Bytes
  records : List Record
  length_header : header.length = 24
  magic : pcapIslg (magicOf header)

namespace LegacyFile

def swap (file : LegacyFile) : Bool := !pcapIsnative (magicOf file.header)

def bytes (file : LegacyFile) : Bytes :=
  file.header ++ file.records.flatMap (Record.bytes file.swap)

def packets (file : LegacyFile) : List Bytes := file.records.map Record.data

end LegacyFile

theorem length_record (swap : Bool) (r : Record) :
    (r.bytes swap).length = 16+r.data.length := by
  rw [Record.bytes, List.length_append, length_fields]
  rfl

/-- The file is opened, and what is left of it are records. -/
structure Before (swap : Bool) (data : Bytes) (f : PcapFile) (rs : List Record) : Prop where
  legacy : f.isNg = false
  noErr : f.sysErr = false
  noEof : f.haveEof = false
  order : f.mustSwap = swap
  left : ∃ front, data = front ++ rs.flatMap (Record.bytes swap) ∧ f.pos = front.length

section Records

variable {swap : Bool} {data : Bytes} {f : PcapFile} {r : Record} {rs : List Record}

theorem Before.next (h : Before swap data f (r :: rs)) :
    Before swap data { f with pos := f.pos+16+r.data.length } rs where
  legacy := h.legacy
  noErr := h.noErr
  noEof := h.noEof
  order := h.order
  left := by
    obtain ⟨front, hdata, hpos⟩ := h.left
    refine ⟨front ++ r.bytes swap, by rw [hdata, List.flatMap_cons, List.append_assoc], ?_⟩
    rw [List.length_append, length_record, hpos, Nat.add_assoc]

theorem Before.data_eq (h : Before swap data f (r :: rs)) :
    slice data (f.pos+16) r.data.length = r.data ∧ f.pos+16+r.data.length ≤ data.length := by
  obtain ⟨front, hdata, hpos⟩ := h.left
  have hlen : (fields swap [(4, r.tsSec), (4, r.tsUsec), (4, r.data.length),
      (4, r.origLen)]).length = 16 := length_fields _ _
  rw [hdata, hpos, List.flatMap_cons]
  constructor
  · have hslice := slice_at_end (fields swap [(4, r.tsSec), (4, r.tsUsec), (4, r.data.length),
      (4, r.origLen)]) r.data (rs.flatMap (Record.bytes swap))
    rw [slice_behind, Record.bytes, List.append_assoc, ← hlen]
    exact hslice
  · rw [List.length_append, List.length_append, length_record]
    omega

theorem Before.inclLen (h : Before swap data f (r :: rs)) : word data f 8 = r.data.length := by
  obtain ⟨front, hdata, hpos⟩ := h.left
  have hfield := field_at swap [(4, r.tsSec), (4, r.tsUsec)] 4 r.data.length [(4, r.origLen)]
    (r.data ++ rs.flatMap (Record.bytes swap)) (i := 8) rfl
  rw [word, hdata, hpos, h.order, slice_behind, List.flatMap_cons, Record.bytes, List.append_assoc]
  exact hfield.trans (Nat.mod_eq_of_lt r.small)

theorem loop_ends_at {k : ℕ} {s t : Reader} (h : nextPkt data s = .ok [] t) :
    readpcapLoop data (k+1) s = .ok 0 t := by
  rw [readpcapLoop, bind_of_ok h, if_pos rfl]
  rfl

section Buffer

variable (stale : List Bytes → Bytes → ℤ)

/-- What `insp_process_pkt` returns for a packet that follows others. -/
def answer (seen : List Bytes) (p : Bytes) : ℤ := (verdict p).getD (stale seen p)

/-- The packets that the loop comes to fit: those behind packets that are valid
or no DNS. -/
def Passes : List Bytes → List Bytes → Prop
  | _, [] => True
  | seen, p :: ps => (0 < p.length ∧ p.length ≤ pktMaxsize) ∧
      (answer stale seen p = 0 → Passes (seen ++ [p]) ps)

end Buffer

end Records

theorem length_records (swap : Bool) (rs : List Record) :
    rs.length ≤ (rs.flatMap (Record.bytes swap)).length := by
  induction rs with
  | nil => exact Nat.le_refl 0
  | cons r rs ih =>
    rw [List.flatMap_cons, List.length_append, List.length_cons, length_record]
    omega

theorem LegacyFile.opened (file : LegacyFile) :
    ∃ f, pcapOpen file.bytes = some f ∧ Before file.swap file.bytes f file.records := by
  have hlen := file.length_header
  have hmagic : slice file.bytes 0 4 = slice file.header 0 4 := slice_append _ _ _ _ (by omega)
  have hin : 24 ≤ file.bytes.length := by
    rw [LegacyFile.bytes, List.length_append]
    omega
  refine ⟨_, pcapOpen_magic hin (by rw [hmagic]; exact file.magic), ?_⟩
  exact ⟨rfl, rfl, rfl, by rw [hmagic]; rfl, file.header, rfl, hlen.symm⟩

end DnsPkt.ReadPcap
