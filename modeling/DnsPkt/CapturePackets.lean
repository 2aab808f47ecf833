import DnsPkt.CaptureProgress

/-!
# Packets and their blocks

A packet block gives its length twice: as a whole and as the number of bytes
that were captured. The reader of enhanced blocks takes both from the file
and does not compare them, the one of simple blocks subtracts without
looking for a borrow. What it returns lies inside the block exactly when the
two lengths agree.
-/

set_option autoImplicit false

namespace DnsPkt.CapturePackets
open DnsPkt.CheckedRun DnsPkt.CheckedRun.Run DnsPkt.Octets DnsPkt.ByteOrder DnsPkt.CaptureFile
open DnsPkt.CaptureProgress

section Readers

variable (data : Bytes)

def word (f : PcapFile) (i : ℕ) : ℕ := loadAs f.mustSwap (slice data (f.pos+i) 4)

theorem word_lt (f : PcapFile) (i : ℕ) : word data f i < 2^32 :=
  loadAs_lt f.mustSwap (length_slice_le data _ 4)

theorem sub32_of_le {a b : ℕ} (h : b ≤ a) (ha : a < 2^32) : sub32 a b = a-b := by
  unfold sub32
  omega

theorem sub32_of_lt {a b : ℕ} (h : a < b) (hb : b < 2^32) : sub32 a b = 2^32+a-b := by
  unfold sub32
  omega

theorem readData_iff (len : ℕ) (f g : PcapFile) (b : Bytes) :
    pcapReadData data len f = .ok b g ↔ (slice data f.pos len).length = len ∧
      b = slice data f.pos len ∧ g = { f with pos := f.pos+len } := by
  constructor
  · intro h
    obtain ⟨rfl, hlen, rfl⟩ := pcapReadData_ok data h
    exact ⟨hlen, rfl, rfl⟩
  · rintro ⟨hlen, rfl, rfl⟩
    unfold pcapReadData
    simp only [hlen, if_true]

theorem orLeave_ok {α : Type} (c : ℤ) (x : Rd α) (f g : PcapFile) (a : α) :
    orLeave c x f = .ok a g ↔ x f = .ok a g := by
  unfold orLeave
  cases x f <;> simp

theorem guard_run {α : Type} (p : Prop) [Decidable p] (c : ℤ) (rest : Unit → Rd α)
    (f : PcapFile) :
    (when p (exit c) >>= rest) f = if p then .exit c f else rest () f := by
  split
  · next h => rw [bind_when_pos h, bind_of_exit (exit_run c f)]
  · next h => rw [bind_when_neg h]

theorem guard_ok {α : Type} (p : Prop) [Decidable p] (c : ℤ) (rest : Unit → Rd α)
    (f g : PcapFile) (a : α) :
    (when p (exit c) >>= rest) f = .ok a g ↔ ¬ p ∧ rest () f = .ok a g := by
  by_cases h : p
  · simp [bind_when_pos h, bind_of_exit (exit_run c f), h]
  · simp [bind_when_neg h, h]

theorem u32_bind {α : Type} (b : Bytes) (i : ℕ) (rest : ℕ → Rd α) (f : PcapFile) :
    (u32 b i >>= rest) f = rest (loadAs f.mustSwap (slice b i 4)) f := rfl

theorem header_bind_ok {α : Type} (n : ℕ) (rest : Bytes → Rd α) (f g : PcapFile) (a : α) :
    (orLeave 0 (pcapReadData data n) >>= rest) f = .ok a g ↔
      (slice data f.pos n).length = n ∧
        rest (slice data f.pos n) { f with pos := f.pos+n } = .ok a g := by
  constructor
  · intro h
    obtain ⟨b, t, hb, h⟩ := (bind_ok _ _ _ _ _).mp h
    obtain ⟨hlen, rfl, rfl⟩ := (readData_iff data n f t b).mp ((orLeave_ok _ _ _ _ _).mp hb)
    exact ⟨hlen, h⟩
  · rintro ⟨hlen, h⟩
    rwa [bind_of_ok ((orLeave_ok _ _ _ _ _).mpr
      ((readData_iff data n f _ _).mpr ⟨hlen, rfl, rfl⟩))]

theorem packet_ok (n skip : ℕ) (f g : PcapFile) (pkt : Bytes) :
    (orLeave 0 (pcapReadData data n) >>= fun pkt => pcapDataSkip skip >>= fun _ => pure pkt) f =
        .ok pkt g ↔
      (slice data f.pos n).length = n ∧ pkt = slice data f.pos n ∧
        g = { f with pos := f.pos+n+skip } := by
  rw [header_bind_ok]
  apply and_congr_right
  intro hlen
  constructor
  · intro h
    cases h
    exact ⟨rfl, rfl⟩
  · rintro ⟨rfl, rfl⟩
    rfl

/-- The word that a header of `n` bytes holds at an offset. -/
theorem header_word (f : PcapFile) {n i : ℕ} (h : i+4 ≤ n) :
    loadAs f.mustSwap (slice (slice data f.pos n) i 4) = word data f i := by
  rw [slice_slice data f.pos h, word]

variable (bufLen : ℕ) (f g : PcapFile) (pkt : Bytes)

theorem pcapReadSpb_ok :
    pcapReadSpb data bufLen f = .ok pkt g ↔ f.haveIdb = true ∧
      (slice data f.pos 12).length = 12 ∧ 12 ≤ word data f 4 ∧ sub32 (word data f 4) 16 ≤ bufLen ∧
      (slice data (f.pos+12) (sub32 (word data f 4) 16)).length = sub32 (word data f 4) 16 ∧
      pkt = slice data (f.pos+12) (sub32 (word data f 4) 16) ∧
      g = { f with pos := (f.pos+12+sub32 (word data f 4) 16+
        sub32 (word data f 4) (12+sub32 (word data f 4) 16)) } := by
  unfold pcapReadSpb
  rw [bind_of_ok (get_run f), guard_ok, header_bind_ok, u32_bind, guard_ok, guard_ok, packet_ok,
    header_word data f (by decide), not_not, not_lt, not_lt]

theorem pcapReadEpb_ok :
    pcapReadEpb data bufLen f = .ok pkt g ↔ f.haveIdb = true ∧
      (slice data f.pos 28).length = 28 ∧ 28 ≤ word data f 4 ∧ word data f 20 ≤ bufLen ∧
      (slice data (f.pos+28) (word data f 20)).length = word data f 20 ∧
      pkt = slice data (f.pos+28) (word data f 20) ∧
      g = { f with pos := (f.pos+28+word data f 20+
        sub32 (word data f 4) (28+word data f 20)) } := by
  unfold pcapReadEpb
  rw [bind_of_ok (get_run f), guard_ok, header_bind_ok, u32_bind, u32_bind, guard_ok, guard_ok,
    packet_ok, header_word data f (by decide), header_word data f (by decide), not_not, not_lt,
    not_lt]

theorem pcapReadDsb_ok :
    pcapReadDsb data bufLen f = .ok pkt g ↔ f.haveShb = true ∧
      (slice data f.pos 16).length = 16 ∧ 16 ≤ word data f 4 ∧ sub32 (word data f 4) 20 ≤ bufLen ∧
      (slice data (f.pos+16) (sub32 (word data f 4) 20)).length = sub32 (word data f 4) 20 ∧
      pkt = slice data (f.pos+16) (sub32 (word data f 4) 20) ∧
      g = { f with pos := (f.pos+16+sub32 (word data f 4) 20+
        sub32 (word data f 4) (16+sub32 (word data f 4) 20)) } := by
  unfold pcapReadDsb
  rw [bind_of_ok (get_run f), guard_ok, header_bind_ok, u32_bind, guard_ok, guard_ok, packet_ok,
    header_word data f (by decide), not_not, not_lt, not_lt]

end Readers

section Returned

variable (data : Bytes) (bufLen : ℕ)

inductive Skips : PcapFile → PcapFile → Prop where
  | here (f : PcapFile) : Skips f f
  | next {f t g : PcapFile} (h : xpbRound data bufLen f = .ok none t) (rest : Skips t g) : Skips f g

theorem pcapReadXpb_from {k : ℕ} {f g : PcapFile} {pkt : Bytes}
    (h : pcapReadXpb data bufLen k f = .ok pkt g) :
    ∃ b, Skips data bufLen f b ∧ xpbRound data bufLen b = .ok (some pkt) g := by
  induction k generalizing f with
  | zero => cases h
  | succ k ih =>
    rw [pcapReadXpb] at h
    obtain ⟨r, t, hr, h⟩ := (bind_ok _ _ _ _ _).mp h
    cases r with
    | some p =>
      cases h
      exact ⟨f, .here f, hr⟩
    | none =>
      obtain ⟨b, hskip, hb⟩ := ih h
      exact ⟨b, .next hr hskip, hb⟩

theorem pcapRead_from {f g : PcapFile} {pkt : Bytes} (hng : f.isNg = true) (hpkt : 0 < pkt.length)
    (h : pcapRead data bufLen f = .ok pkt g) :
    ∃ b, Skips data bufLen f b ∧ xpbRound data bufLen b = .ok (some pkt) g := by
  unfold pcapRead at h
  split at h
  · cases h
    simp at hpkt
  · cases hr : readPkt data bufLen f with
    | ok p t =>
      rw [hr] at h
      cases h
      rw [readPkt, if_pos hng] at hr
      exact pcapReadXpb_from data bufLen hr
    | exit e t =>
      rw [hr] at h
      cases h
      simp at hpkt
    | fault d =>
      rw [hr] at h
      cases h

def IsPacket (b : PcapFile) : Prop := typeAt data b = pcapSpbType ∨ typeAt data b = pcapEpbType

instance (b : PcapFile) : Decidable (IsPacket data b) := inferInstanceAs (Decidable (_ ∨ _))

def hdrLen (b : PcapFile) : ℕ := if typeAt data b = pcapSpbType then 12 else 28

/-- The bytes of the packet and the file behind it respect the length of the block. -/
def Contained (b : PcapFile) (pkt : Bytes) (g : PcapFile) : Prop :=
  b.pos+hdrLen data b+pkt.length+4 ≤ b.pos+word data b 4 ∧ g.pos = b.pos+word data b 4

/-- A simple block has room for its lengths, an enhanced one for the packet as well. -/
def LengthsAgree (b : PcapFile) : Prop :=
  if typeAt data b = pcapSpbType then 16 ≤ word data b 4 else 32+word data b 20 ≤ word data b 4

theorem xpbRound_spb {f : PcapFile} (hin : f.pos+4 ≤ data.length)
    (hty : typeAt data f = pcapSpbType) :
    xpbRound data bufLen f = (pcapReadSpb data bufLen >>= fun pkt => pure (some pkt)) f := by
  rw [xpbRound, bind_of_ok (pcapPeekBlock_run data hin), hty, bind_when_neg (by decide)]
  rfl

theorem xpbRound_epb {f : PcapFile} (hin : f.pos+4 ≤ data.length)
    (hty : typeAt data f = pcapEpbType) :
    xpbRound data bufLen f = (pcapReadEpb data bufLen >>= fun pkt => pure (some pkt)) f := by
  rw [xpbRound, bind_of_ok (pcapPeekBlock_run data hin), hty, bind_when_neg (by decide)]
  rfl

theorem xpbRound_dsb {f : PcapFile} (hin : f.pos+4 ≤ data.length)
    (hty : typeAt data f = pcapDsbType) :
    xpbRound data bufLen f = (pcapReadDsb data bufLen >>= fun pkt => pure (some pkt)) f := by
  rw [xpbRound, bind_of_ok (pcapPeekBlock_run data hin), hty, bind_when_neg (by decide)]
  rfl

variable {data bufLen}

theorem spb_contained {b g : PcapFile} {pkt : Bytes} (hin : b.pos+4 ≤ data.length)
    (hty : typeAt data b = pcapSpbType) (h : xpbRound data bufLen b = .ok (some pkt) g) :
    pkt = slice data (b.pos+12) pkt.length ∧
      (b.pos+12+pkt.length+4 ≤ b.pos+word data b 4 ∧ g.pos = b.pos+word data b 4 ↔
        16 ≤ word data b 4) := by
  have hT := word_lt data b 4
  rw [xpbRound_spb data bufLen hin hty] at h
  obtain ⟨p, t, hp, h⟩ := (bind_ok _ _ _ _ _).mp h
  cases h
  obtain ⟨-, -, h12, -, hlen, hpkt, rfl⟩ := (pcapReadSpb_ok data bufLen b g pkt).mp hp
  rw [← hpkt] at hlen
  refine ⟨by rw [hlen]; exact hpkt, ?_⟩
  rw [hlen]
  dsimp only
  by_cases h16 : 16 ≤ word data b 4
  · rw [sub32_of_le h16 hT, sub32_of_le (by omega) hT]
    omega
  · rw [sub32_of_lt (Nat.lt_of_not_le h16) (by decide)]
    omega

theorem epb_contained {b g : PcapFile} {pkt : Bytes} (hin : b.pos+4 ≤ data.length)
    (hty : typeAt data b = pcapEpbType) (h : xpbRound data bufLen b = .ok (some pkt) g) :
    pkt = slice data (b.pos+28) pkt.length ∧
      (b.pos+28+pkt.length+4 ≤ b.pos+word data b 4 ∧ g.pos = b.pos+word data b 4 ↔
        32+word data b 20 ≤ word data b 4) := by
  have hT := word_lt data b 4
  rw [xpbRound_epb data bufLen hin hty] at h
  obtain ⟨p, t, hp, h⟩ := (bind_ok _ _ _ _ _).mp h
  cases h
  obtain ⟨-, -, h28, -, hlen, hpkt, rfl⟩ := (pcapReadEpb_ok data bufLen b g pkt).mp hp
  rw [← hpkt] at hlen
  refine ⟨by rw [hlen]; exact hpkt, ?_⟩
  rw [hlen]
  dsimp only
  by_cases hfit : 32+word data b 20 ≤ word data b 4
  · rw [sub32_of_le (by omega) hT]
    omega
  · omega

/-- What a call returns from a packet block was read behind the header of that block. It
lies inside the block, and the file is left at its end, exactly when its lengths agree. -/
theorem packet_contained_iff {f g : PcapFile} {pkt : Bytes} (hng : f.isNg = true)
    (h : pcapRead data bufLen f = .ok pkt g) (hpkt : 0 < pkt.length) :
    ∃ b, Skips data bufLen f b ∧ xpbRound data bufLen b = .ok (some pkt) g ∧
      (IsPacket data b → pkt = slice data (b.pos+hdrLen data b) pkt.length ∧
        (Contained data b pkt g ↔ LengthsAgree data b)) := by
  obtain ⟨b, hskip, hb⟩ := pcapRead_from data bufLen hng hpkt h
  refine ⟨b, hskip, hb, fun hty => ?_⟩
  have hin : b.pos+4 ≤ data.length := by
    by_contra hout
    obtain ⟨t, ht, -⟩ := xpbRound_stop data bufLen (mt And.left hout)
    rw [ht] at hb
    cases hb
  unfold Contained LengthsAgree hdrLen
  rcases hty with hty | hty
  · rw [if_pos hty, if_pos hty]
    exact spb_contained hin hty hb
  · rw [if_neg (by rw [hty]; decide), if_neg (by rw [hty]; decide)]
    exact epb_contained hin hty hb

/-- A file with one enhanced block that claims a total length of its own. -/
def oneEpb (total : ℕ) (pkt : Bytes) : Bytes :=
  shbBytes false ++ idbBytes false ++ fields false [(4, pcapEpbType), (4, total), (4, 0), (4, 0),
    (4, 0), (4, pkt.length), (4, pkt.length)] ++ pkt ++ fields false [(4, total)]

def opened : PcapFile := ⟨28, true, false, true, false, false, false⟩

def atEpb : PcapFile := ⟨48, true, false, true, true, false, false⟩

theorem packet_of_a_whole_block : ∃ b, Skips (oneEpb 40 [1, 2, 3, 4, 5, 6, 7, 8]) 8 opened b ∧
    xpbRound (oneEpb 40 [1, 2, 3, 4, 5, 6, 7, 8]) 8 b =
      .ok (some [1, 2, 3, 4, 5, 6, 7, 8]) { atEpb with pos := 88 } ∧
    (IsPacket (oneEpb 40 [1, 2, 3, 4, 5, 6, 7, 8]) b →
      [1, 2, 3, 4, 5, 6, 7, 8] = slice (oneEpb 40 [1, 2, 3, 4, 5, 6, 7, 8])
        (b.pos+hdrLen (oneEpb 40 [1, 2, 3, 4, 5, 6, 7, 8]) b) 8 ∧
      (Contained (oneEpb 40 [1, 2, 3, 4, 5, 6, 7, 8]) b [1, 2, 3, 4, 5, 6, 7, 8]
          { atEpb with pos := 88 } ↔
        LengthsAgree (oneEpb 40 [1, 2, 3, 4, 5, 6, 7, 8]) b)) :=
  packet_contained_iff rfl (by decide +kernel) (by decide)

theorem packet_beyond_its_block : pcapOpen (oneEpb 32 [1, 2, 3, 4, 5, 6, 7, 8]) = some opened ∧
    ∃ b g, pcapRead (oneEpb 32 [1, 2, 3, 4, 5, 6, 7, 8]) 8 opened =
        .ok [1, 2, 3, 4, 5, 6, 7, 8] g ∧
      Skips (oneEpb 32 [1, 2, 3, 4, 5, 6, 7, 8]) 8 opened b ∧
      xpbRound (oneEpb 32 [1, 2, 3, 4, 5, 6, 7, 8]) 8 b = .ok (some [1, 2, 3, 4, 5, 6, 7, 8]) g ∧
      IsPacket (oneEpb 32 [1, 2, 3, 4, 5, 6, 7, 8]) b ∧
      ¬ Contained (oneEpb 32 [1, 2, 3, 4, 5, 6, 7, 8]) b [1, 2, 3, 4, 5, 6, 7, 8] g := by
  have hidb : xpbRound (oneEpb 32 [1, 2, 3, 4, 5, 6, 7, 8]) 8 opened = .ok none atEpb := by
    decide +kernel
  have hround : xpbRound (oneEpb 32 [1, 2, 3, 4, 5, 6, 7, 8]) 8 atEpb =
      .ok (some [1, 2, 3, 4, 5, 6, 7, 8]) { atEpb with pos := 76+8+(2^32-4) } := by
    decide +kernel
  refine ⟨by decide +kernel, atEpb, _, ?_, .next hidb (.here _), hround, by decide +kernel, ?_⟩
  · decide +kernel
  · rintro ⟨-, hend⟩
    revert hend
    decide +kernel

end Returned

end DnsPkt.CapturePackets
