import DnsPkt.CaptureRoundTrip
import DnsPkt.SizedPieces
import Mathlib.Data.List.Forall2

/-!
# A walk over written files

A reader that knows nothing of the blocks but their type and length walks
over a pcapng file. Over what the writer left it comes by the section header,
the interface and one block for each packet, and ends at the end of the file.
-/

set_option autoImplicit false

namespace DnsPkt.CaptureWalk
open DnsPkt.Octets DnsPkt.ByteOrder DnsPkt.CaptureFile DnsPkt.CaptureBlocks
open DnsPkt.CaptureRoundTrip DnsPkt.SizedPieces

variable (swap : Bool)

def blockType (b : Bytes) : ℕ := loadAs swap (slice b 0 4)

/-- The total length of the block in front, none if the file ends before it. -/
def blockTotal (b : Bytes) : ℕ := if b.length < 8 then 0 else loadAs swap (slice b 4 4)

/-- The blocks of a file, for a reader that jumps by their lengths. -/
def walk (data : Bytes) : Option (List Bytes) := pieces (blockTotal swap) data

def fixedSize (type : ℕ) : ℕ :=
  if type = pcapShbType then 24 else if type = pcapIdbType then 16
  else if type = pcapSpbType then 12 else 28

def packetType (useSpb : Bool) : ℕ := if useSpb then pcapSpbType else pcapEpbType

/-- A block that a reader can trust: it is as long as it announces, in full
words and with the length once more at its end. -/
structure Framed (b : Bytes) : Prop where
  length : b.length = blockTotal swap b
  words : 4 ∣ blockTotal swap b
  fixed : fixedSize (blockType swap b)+4 ≤ blockTotal swap b
  footer : loadAs swap (slice b (blockTotal swap b-4) 4) = blockTotal swap b

def expectedTypes (useSpb : Bool) (pkts : List (ℕ × Bytes)) : List ℕ :=
  pcapShbType :: if pkts = [] then [] else pcapIdbType :: pkts.map fun _ => packetType useSpb

section Block

variable {swap} {b : Block}

theorem blockTotal_bytes (hswap : b.swap = swap) (rest : Bytes) :
    blockTotal swap (b.bytes ++ rest) = b.total := by
  have hlen := length_bytes b
  have htotal : 12 ≤ b.total := Nat.le_add_right ..
  have hnot : ¬ (b.bytes ++ rest).length < 8 := by
    rw [List.length_append]
    omega
  rw [blockTotal, if_neg hnot, slice_append _ _ _ _ (by omega), ← hswap, bytes_total]

theorem blockTotal_block (hswap : b.swap = swap) : blockTotal swap b.bytes = b.total := by
  rw [← List.append_nil b.bytes, blockTotal_bytes hswap]

theorem blockType_block (hswap : b.swap = swap) : blockType swap b.bytes = b.type := by
  rw [blockType, ← hswap, bytes_type]

theorem announces_block (hswap : b.swap = swap) : Announces (blockTotal swap) b.bytes := by
  constructor
  · intro hnil
    have hlen := length_bytes b
    rw [hnil, List.length_nil, Block.total] at hlen
    omega
  · intro rest
    rw [blockTotal_bytes hswap, length_bytes]

theorem bytes_footer (b : Block) : loadAs b.swap (slice b.bytes (b.total-4) 4) = b.total := by
  have hsplit : b.bytes = (fields b.swap [(4, b.type), (4, b.total)] ++ b.body) ++
      (fields b.swap [(4, b.total)] ++ []) := by
    rw [List.append_nil, List.append_assoc]
    rfl
  have hoff : b.total-4 = (fields b.swap [(4, b.type), (4, b.total)] ++ b.body).length+0 := by
    rw [List.length_append, length_fields, Block.total]
    simp
    omega
  rw [hsplit, hoff, slice_behind]
  exact (field_at b.swap [] 4 b.total [] [] rfl).trans (Nat.mod_eq_of_lt b.small)

theorem framed_block (hswap : b.swap = swap) (hwords : 4 ∣ b.total)
    (hfixed : fixedSize b.type+4 ≤ b.total) : Framed swap b.bytes where
  length := by rw [length_bytes, blockTotal_block hswap]
  words := by rwa [blockTotal_block hswap]
  fixed := by rwa [blockTotal_block hswap, blockType_block hswap]
  footer := by
    rw [blockTotal_block hswap]
    subst hswap
    exact bytes_footer b

end Block

theorem four_dvd_totLen {hdr : ℕ} (h : 4 ∣ hdr) (pkt : Bytes) : 4 ∣ totLen hdr pkt := by
  unfold totLen calcPadlen
  omega

theorem shb_framed : Framed swap (shbBytes swap) := by
  rw [← shbBlock_bytes]
  have htotal : (shbBlock swap).total = 28 := by
    rw [Block.total, shbBlock, length_fields]
    decide
  apply framed_block (b := shbBlock swap) rfl
  · rw [htotal]
    decide
  · rw [htotal]
    exact Nat.le_refl 28

theorem idb_framed : Framed swap (idbBytes swap) := by
  rw [← idbBlock_bytes]
  have htotal : (idbBlock swap).total = 20 := by
    rw [Block.total, idbBlock, length_fields]
    decide
  apply framed_block (b := idbBlock swap) rfl
  · rw [htotal]
    decide
  · rw [htotal]
    exact Nat.le_refl 20

/-- Every packet is written as one block of its type, which holds the packet
behind its header. -/
theorem packet_block (useSpb : Bool) (p : ℕ × Bytes)
    (h : totLen (fixedSize (packetType useSpb)) p.2 < 2^32) :
    ∃ b : Block, b.swap = swap ∧ b.bytes = packetBytes swap useSpb p ∧
      b.type = packetType useSpb ∧ b.total = totLen (fixedSize (packetType useSpb)) p.2 ∧
      slice b.bytes (fixedSize (packetType useSpb)) p.2.length = p.2 := by
  have hsplit (hdr foot : Bytes) {n : ℕ} (hn : hdr.length = n) : slice (hdr ++ (p.2 ++
      (List.replicate (calcPadlen p.2.length) 0 ++ foot))) n p.2.length = p.2 :=
    hn ▸ slice_at_end ..
  cases useSpb with
  | true =>
    change totLen 12 p.2 < 2^32 at h
    have hbytes := spbBlock_bytes swap p.2 h
    refine ⟨spbBlock swap p.2 h, rfl, hbytes, rfl, spbBlock_total swap p.2 h, ?_⟩
    rw [hbytes, spbBytes]
    exact hsplit _ _ (length_fields _ _)
  | false =>
    change totLen 28 p.2 < 2^32 at h
    have hbytes := epbBlock_bytes swap p.1 p.2 h
    refine ⟨epbBlock swap p.1 p.2 h, rfl, hbytes, rfl, epbBlock_total swap p.1 p.2 h, ?_⟩
    rw [hbytes, epbBytes]
    exact hsplit _ _ (length_fields _ _)

structure Holds (useSpb : Bool) (b : Bytes) (p : ℕ × Bytes) : Prop where
  announces : Announces (blockTotal swap) b
  type : blockType swap b = packetType useSpb
  framed : Framed swap b
  packet : slice b (fixedSize (packetType useSpb)) p.2.length = p.2

theorem packet_holds (useSpb : Bool) (p : ℕ × Bytes)
    (h : totLen (fixedSize (packetType useSpb)) p.2 < 2^32) :
    Holds swap useSpb (packetBytes swap useSpb p) p := by
  obtain ⟨b, hswap, hbytes, htype, htotal, hpacket⟩ := packet_block swap useSpb p h
  have hhdr : 4 ∣ fixedSize (packetType useSpb) := by cases useSpb <;> decide
  rw [← hbytes]
  refine ⟨announces_block hswap, by rw [blockType_block hswap, htype],
    framed_block hswap ?_ ?_, hpacket⟩
  · rw [htotal]
    exact four_dvd_totLen hhdr p.2
  · rw [htotal, htype, totLen]
    omega

def writtenBlocks (useSpb : Bool) (pkts : List (ℕ × Bytes)) : List Bytes :=
  shbBytes swap :: if pkts = [] then [] else idbBytes swap :: pkts.map (packetBytes swap useSpb)

theorem written_flatten (useSpb : Bool) (pkts : List (ℕ × Bytes)) :
    written swap true useSpb pkts = (writtenBlocks swap useSpb pkts).flatten := by
  rw [written_ng, writtenBlocks, List.flatten_cons]
  by_cases hnil : pkts = []
  · rw [if_pos hnil, if_pos hnil, List.flatten_nil]
  · rw [if_neg hnil, if_neg hnil, List.flatten_cons, List.flatMap_def]

theorem forall_written {P : Bytes → Prop} {useSpb : Bool} {pkts : List (ℕ × Bytes)}
    (hshb : P (shbBytes swap)) (hidb : P (idbBytes swap))
    (hpkt : ∀ p ∈ pkts, P (packetBytes swap useSpb p)) :
    ∀ b ∈ writtenBlocks swap useSpb pkts, P b := by
  rw [writtenBlocks, List.forall_mem_cons]
  refine ⟨hshb, ?_⟩
  by_cases hnil : pkts = []
  · rw [if_pos hnil]
    simp
  · rw [if_neg hnil, List.forall_mem_cons, List.forall_mem_map]
    exact ⟨hidb, hpkt⟩

/-- A walk over a written file cuts it into a section header, an interface if
there are packets, and a block for every packet, all of them framed. -/
theorem written_walk (useSpb : Bool) (pkts : List (ℕ × Bytes))
    (h : ∀ p ∈ pkts, totLen (fixedSize (packetType useSpb)) p.2 < 2^32) :
    ∃ bs, walk swap (written swap true useSpb pkts) = some bs ∧
      bs.flatten = written swap true useSpb pkts ∧
      bs.map (blockType swap) = expectedTypes useSpb pkts ∧ (∀ b ∈ bs, Framed swap b) ∧
      List.Forall₂ (fun b p => slice b (fixedSize (packetType useSpb)) p.2.length = p.2)
        (bs.drop 2) pkts := by
  have hholds p (hp : p ∈ pkts) := packet_holds swap useSpb p (h p hp)
  refine ⟨writtenBlocks swap useSpb pkts, ?_, (written_flatten swap useSpb pkts).symm, ?_, ?_, ?_⟩
  · rw [written_flatten, walk]
    apply pieces_flatten
    apply forall_written
    · exact shbBlock_bytes swap ▸ announces_block rfl
    · exact idbBlock_bytes swap ▸ announces_block rfl
    · exact fun p hp => (hholds p hp).announces
  · have hshb : blockType swap (shbBytes swap) = pcapShbType :=
      shbBlock_bytes swap ▸ blockType_block rfl
    have hidb : blockType swap (idbBytes swap) = pcapIdbType :=
      idbBlock_bytes swap ▸ blockType_block rfl
    rw [writtenBlocks, expectedTypes, List.map_cons, hshb]
    by_cases hnil : pkts = []
    · rw [if_pos hnil, if_pos hnil, List.map_nil]
    · rw [if_neg hnil, if_neg hnil, List.map_cons, hidb, List.map_map]
      congr 2
      exact List.map_congr_left fun p hp => (hholds p hp).type
  · exact forall_written swap (shb_framed swap) (idb_framed swap) fun p hp => (hholds p hp).framed
  · rw [writtenBlocks]
    by_cases hnil : pkts = []
    · rw [hnil]
      exact .nil
    · rw [if_neg hnil, List.drop_succ_cons, List.drop_succ_cons, List.drop_zero,
        List.forall₂_map_left_iff, List.forall₂_same]
      exact fun p hp => (hholds p hp).packet

theorem two_packets_walk :
    ∃ bs, walk false (written false true false [(0, [1, 2, 3]), (7, [])]) = some bs ∧
      bs.map (blockType false) = [pcapShbType, pcapIdbType, pcapEpbType, pcapEpbType] := by
  obtain ⟨bs, hwalk, -, htypes, -⟩ := written_walk false false [(0, [1, 2, 3]), (7, [])]
    (by decide)
  exact ⟨bs, hwalk, htypes⟩

end DnsPkt.CaptureWalk
