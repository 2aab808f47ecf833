import DnsPkt.CaptureRoundTrip

/-!
# Blocks that are not packets

A block of a type that the reader does not know is skipped as a whole, so it
can be inserted into a file unseen. Two kinds of blocks are not: a type from
`2^31` on turns into a negative `int`, which the loop takes for an error, and
the secrets of a decryption block are handed to the caller like a packet.
-/

set_option autoImplicit false

namespace DnsPkt.CaptureInsertion
open DnsPkt.CheckedRun DnsPkt.CheckedRun.Run DnsPkt.Octets DnsPkt.ByteOrder DnsPkt.CaptureFile
open DnsPkt.CaptureProgress DnsPkt.CapturePackets DnsPkt.CaptureBlocks DnsPkt.CaptureRoundTrip

def secretLen (b : Block) : ℕ := sub32 b.total 20

/-- The block holds secrets that fit the buffer, and the file holds them all. -/
def Surfaces (bufLen : ℕ) (b : Block) (after : List Block) : Prop :=
  b.type = pcapDsbType ∧ 16 ≤ b.total ∧ 0 < secretLen b ∧ secretLen b ≤ bufLen ∧
    16+secretLen b ≤ (fileBytes (b :: after)).length

/-- The block is one that is skipped, or nothing behind it is left to be returned and it
returns nothing itself. -/
def Unseen (bufLen : ℕ) (b : Block) (after : List Block) : Prop :=
  b.type < 2^31 ∧ b.type ≠ pcapDsbType ∨
    (∀ c ∈ after, ¬ c.Carries) ∧ ¬ Surfaces bufLen b after

section Insertion

variable {data : Bytes} {t : PcapFile} {b : Block} {after : List Block} {bufLen : ℕ}

theorem faces_rest (h : At data t [] (fileBytes (b :: after))) : Faces data t b := by
  obtain ⟨before, hdata, hpos⟩ := h.left
  exact ⟨before, fileBytes after, by simp [hdata, fileBytes], hpos⟩

theorem at_blocks (h : At data t [] (fileBytes (b :: after))) (hsound : ∀ c ∈ b :: after, c.Sound)
    (horder : InOrder t.mustSwap (b :: after)) : At data t (b :: after) [] where
  ng := h.ng
  shb := h.shb
  noErr := h.noErr
  noEof := h.noEof
  left := by
    obtain ⟨before, hdata, hpos⟩ := h.left
    exact ⟨before, by simpa [fileBytes] using hdata, hpos⟩
  order := horder
  sound := hsound

theorem rest_length (h : At data t [] (fileBytes (b :: after))) :
    data.length = t.pos+(fileBytes (b :: after)).length := by
  obtain ⟨before, hdata, hpos⟩ := h.left
  rw [hdata, hpos]
  simp [fileBytes]

theorem sound_of_type (h : b.type ≠ pcapShbType ∧ b.type ≠ pcapIdbType ∧ b.type ≠ pcapSpbType ∧
    b.type ≠ pcapEpbType) (hd : b.type = pcapDsbType → 8 ≤ b.body.length) : b.Sound where
  shb hty := absurd hty h.1
  idb hty := absurd hty h.2.1
  spb hty := absurd hty h.2.2.1
  epb hty := absurd hty h.2.2.2
  dsb := hd

theorem typeAt_faces (h : Faces data t b) (hswap : t.mustSwap = b.swap) :
    typeAt data t = toInt b.type ∧ word data t 4 = b.total := by
  have htype := h.slice_eq (i := 0) (n := 4) (by rw [Block.total]; omega)
  rw [Nat.add_zero] at htype
  rw [typeAt, htype, word, h.slice_eq (by rw [Block.total]; omega), hswap, bytes_type, bytes_total]
  exact ⟨rfl, rfl⟩

/-- Without secrets to return the call ends at a decryption block. -/
theorem dsb_ends_call (h : At data t [] (fileBytes (b :: after))) (hswap : t.mustSwap = b.swap)
    (hty : b.type = pcapDsbType) (hs : ¬ Surfaces bufLen b after) :
    ∃ g, pcapRead data bufLen t = .ok [] g := by
  obtain ⟨htype, htotal⟩ := typeAt_faces (faces_rest h) hswap
  have hlong := (faces_rest h).inside
  have hlen := rest_length h
  have htot : b.total = 12+b.body.length := rfl
  have hround := xpbRound_dsb data bufLen (f := t) (by omega) (by rw [htype, hty]; decide)
  cases hr : pcapReadDsb data bufLen t with
  | ok pkt g =>
    obtain ⟨-, -, h16, hfit, hgot, rfl, -⟩ := (pcapReadDsb_ok data bufLen t g pkt).mp hr
    rw [htotal] at h16 hfit hgot
    have hzero : sub32 b.total 20 = 0 := by
      by_contra hpos
      refine hs ⟨hty, h16, Nat.pos_of_ne_zero hpos, hfit, ?_⟩
      simp only [slice, List.length_take, List.length_drop] at hgot
      unfold secretLen
      omega
    rw [bind_of_ok hr, htotal, hzero] at hround
    exact ⟨g, pcapRead_packet h hround⟩
  | exit e g =>
    rw [bind_of_exit hr] at hround
    exact ⟨g, pcapRead_exit h hround⟩
  | fault d =>
    rw [bind_of_fault hr] at hround
    exact absurd hround (xpbRound_ne_fault data bufLen t d)

/-- Secrets that surface are returned by the call. -/
theorem dsb_surfaces (h : At data t [] (fileBytes (b :: after))) (hswap : t.mustSwap = b.swap)
    (hs : Surfaces bufLen b after) :
    ∃ pkt g, pcapRead data bufLen t = .ok pkt g ∧ pkt.length = secretLen b := by
  obtain ⟨hty, h16, hpos, hfit, hin⟩ := hs
  obtain ⟨htype, htotal⟩ := typeAt_faces (faces_rest h) hswap
  have hlen := rest_length h
  have hround := xpbRound_dsb data bufLen (f := t) (by omega) (by rw [htype, hty]; decide)
  have hgot : (slice data (t.pos+16) (secretLen b)).length = secretLen b :=
    length_slice _ _ _ (by omega)
  have hread := (pcapReadDsb_ok data bufLen t _ _).mpr ⟨h.shb, length_slice _ _ _ (by omega),
    by rwa [htotal], by rwa [htotal], by rw [htotal]; exact hgot, rfl, rfl⟩
  rw [bind_of_ok hread] at hround
  exact ⟨_, _, pcapRead_packet h hround, by rw [htotal]; exact hgot⟩

/-- Where the loop stops at the block, what it returns is unchanged if nothing followed. -/
theorem stopped_iff {pkts : List Bytes} (hp : packets bufLen t.haveIdb after = some pkts)
    (hstop : ¬ (b.type < 2^31 ∧ b.type ≠ pcapDsbType)) (hs : ¬ Surfaces bufLen b after) {k : ℕ}
    {g : PcapFile} (hg : pcapRead data bufLen t = .ok [] g) :
    (∃ g', readLoop data bufLen (k+1) t = some (pkts, g')) ↔ Unseen bufLen b after := by
  rw [readLoop_stop data bufLen hg, Unseen, or_iff_right hstop, and_iff_left hs,
    ← packets_eq_nil hp]
  constructor
  · rintro ⟨g', h⟩
    cases h
    rfl
  · rintro rfl
    exact ⟨g, rfl⟩

/-- Surfaced secrets are no packet of the blocks behind them. -/
theorem surfaced_ne (h : At data t [] (fileBytes (b :: after))) (hsound : ∀ c ∈ after, c.Sound)
    (hb : b.type ≠ pcapShbType ∧ b.type ≠ pcapIdbType ∧ b.type ≠ pcapSpbType ∧
      b.type ≠ pcapEpbType) (horder : InOrder t.mustSwap (b :: after))
    (hs : Surfaces bufLen b after) {pkts : List Bytes}
    (hp : packets bufLen t.haveIdb after = some pkts) {k : ℕ} (hk : pkts.length+1 < k)
    (g : PcapFile) : readLoop data bufLen k t ≠ some (pkts, g) := by
  obtain ⟨hty, h16, hpos, hfit, hin⟩ := hs
  have htot : b.total = 12+b.body.length := rfl
  have hsmall := b.small
  intro hloop
  by_cases hbody : 8 ≤ b.body.length
  · have hat := at_blocks h
      (List.forall_mem_cons.mpr ⟨sound_of_type hb fun _ => hbody, hsound⟩) horder
    have hsecret : secretLen b = b.body.length-8 := by
      rw [secretLen, sub32_of_le (by omega) (by omega)]
      omega
    have heffect : b.effect bufLen t.haveIdb = .packet (b.body.drop 8) := by
      have hne : ¬ (b.body.drop 8 = [] ∨ bufLen < (b.body.drop 8).length) := by
        rw [List.drop_eq_nil_iff, List.length_drop]
        omega
      unfold Block.effect offer
      rw [if_neg (not_or.mpr ⟨hb.1, hb.2.1⟩), if_neg hb.2.2.1, if_neg hb.2.2.2, if_pos hty,
        if_neg hne]
    have hmore : packets bufLen t.haveIdb (b :: after) = some (b.body.drop 8 :: pkts) := by
      rw [packets, heffect]
      dsimp only
      rw [hp, Option.map_some]
    obtain ⟨g', hg', -⟩ := readLoop_complete hat hmore (k := k) hk
    rw [hloop] at hg'
    have hlen := congrArg List.length (congrArg Prod.fst (Option.some.inj hg'))
    simp at hlen
  · have hsecret : secretLen b = 2^32+b.total-20 :=
      sub32_of_lt (by omega) (by decide)
    obtain ⟨pkt, g', hg', hlen⟩ := dsb_surfaces h (horder.1.resolve_left hb.1).symm
      ⟨hty, h16, hpos, hfit, hin⟩
    obtain ⟨j, rfl⟩ : ∃ j, k = j+1 := ⟨k-1, by omega⟩
    rw [readLoop_next data bufLen (List.length_pos_iff.mp (by omega)) hg'] at hloop
    obtain ⟨r, -, heq⟩ := Option.map_eq_some_iff.mp hloop
    have hpkts : pkt :: r.1 = pkts := congrArg Prod.fst heq
    have hmem : pkt ∈ pkts := hpkts ▸ List.mem_cons_self ..
    have hshort := packets_short hp pkt hmem
    omega

/-- What the loop returns from the block on, when the blocks behind it give `pkts`. -/
theorem loop_from_block (h : At data t [] (fileBytes (b :: after)))
    (hb : b.type ≠ pcapShbType ∧ b.type ≠ pcapIdbType ∧ b.type ≠ pcapSpbType ∧
      b.type ≠ pcapEpbType)
    (hsound : ∀ c ∈ after, c.Sound) (horder : InOrder t.mustSwap (b :: after))
    {pkts : List Bytes} (hp : packets bufLen t.haveIdb after = some pkts) {k : ℕ}
    (hk : pkts.length+1 < k) :
    (∃ g, readLoop data bufLen k t = some (pkts, g)) ↔ Unseen bufLen b after := by
  have hswap : t.mustSwap = b.swap := (horder.1.resolve_left hb.1).symm
  obtain ⟨k, rfl⟩ : ∃ j, k = j+1 := ⟨k-1, by omega⟩
  by_cases hdsb : b.type = pcapDsbType
  · by_cases hs : Surfaces bufLen b after
    · constructor
      · rintro ⟨g, hg⟩
        exact absurd hg (surfaced_ne h hsound hb horder hs hp hk g)
      · rintro (hskip | hnone)
        · exact absurd hdsb hskip.2
        · exact absurd hs hnone.2
    · obtain ⟨g, hg⟩ := dsb_ends_call h hswap hdsb hs
      exact stopped_iff hp (fun hskip => hskip.2 hdsb) hs hg
  · have hat := at_blocks h (List.forall_mem_cons.mpr
      ⟨sound_of_type hb fun hd => absurd hd hdsb, hsound⟩) horder
    by_cases hhigh : 2^31 ≤ b.type
    · have hround := xpbRound_follows bufLen hat
      rw [effect_high bufLen t.haveIdb hhigh] at hround
      obtain ⟨g, hg, -⟩ := pcapRead_stops hat hround
      exact stopped_iff hp (fun hskip => absurd hskip.1 (not_lt.mpr hhigh))
        (fun hs => hdsb hs.1) hg
    · have hlow : b.type < 2^31 := not_le.mp hhigh
      have hskip : b.effect bufLen t.haveIdb = .skip := by
        unfold Block.effect
        rw [if_neg (not_or.mpr ⟨hb.1, hb.2.1⟩), if_neg hb.2.2.1, if_neg hb.2.2.2, if_neg hdsb,
          if_pos hlow]
      have hmore : packets bufLen t.haveIdb (b :: after) = some pkts := by
        rw [packets, hskip]
        simpa [hb.2.1] using hp
      obtain ⟨g, hg, -⟩ := readLoop_complete hat hmore (k := k+1) (by omega)
      exact ⟨fun _ => .inl ⟨hlow, hdsb⟩, fun _ => ⟨g, hg⟩⟩

end Insertion

/-- A block inserted behind the first interface of a well-formed file that is read to its
end leaves what is returned unchanged exactly when it is unseen. -/
theorem insertion_unseen_iff {s : Block} {before after : List Block} {b : Block} {bufLen : ℕ}
    {pkts : List Bytes} {g : PcapFile} (hwf : WellFormed s (before ++ after))
    (hread : readFile (fileBytes (s :: (before ++ after))) bufLen = some (pkts, g))
    (heof : g.haveEof = true) (horder : InOrder s.swap (before ++ b :: after))
    (hb : b.type ≠ pcapShbType ∧ b.type ≠ pcapIdbType ∧ b.type ≠ pcapSpbType ∧
      b.type ≠ pcapEpbType) :
    (∃ g', readFile (fileBytes (s :: (before ++ b :: after))) bufLen = some (pkts, g')) ↔
      Unseen bufLen b after := by
  have hp := packets_of_readFile hwf hread heof
  rw [packets_append] at hp
  obtain ⟨p1, hp1, hmap⟩ := Option.bind_eq_some_iff.mp hp
  obtain ⟨p2, hp2, rfl⟩ := Option.map_eq_some_iff.mp hmap
  have hwf1 : WellFormed s before := ⟨hwf.shb, hwf.head, ((inOrder_append _ _ _).mp hwf.order).1,
    fun c hc => hwf.sound c (List.mem_append_left _ hc)⟩
  have hdata : fileBytes (s :: (before ++ b :: after)) =
      fileBytes (s :: before) ++ fileBytes (b :: after) := by simp [fileBytes]
  obtain ⟨f, hopen, hat, hidb, hs⟩ := pcapOpen_run hwf1 (fileBytes (b :: after))
  rw [← hidb] at hp1 hp2
  obtain ⟨t, ht, hidb', hswap, hloop⟩ := readLoop_pass hat hp1
  have hlen1 := length_packets hp1
  have hlen2 := length_packets hp2
  have hlong := length_fileBytes (s :: (before ++ b :: after))
  simp only [List.length_cons, List.length_append] at hlong
  obtain ⟨k, hk⟩ : ∃ k, (fileBytes (s :: (before ++ b :: after))).length+1 = p1.length+k :=
    ⟨_, (Nat.add_sub_cancel' (by omega)).symm⟩
  have hrest : InOrder t.mustSwap (b :: after) := by
    rw [hswap, hs]
    exact ((inOrder_append _ _ _).mp horder).2
  rw [← loop_from_block ht hb (fun c hc => hwf.sound c (List.mem_append_right _ hc)) hrest
    (hidb' ▸ hp2) (k := k) (by omega)]
  rw [readFile, hk, hdata, hopen, Option.bind_some, hloop]
  constructor
  · rintro ⟨g', h⟩
    obtain ⟨r, hr, heq⟩ := Option.map_eq_some_iff.mp h
    refine ⟨r.2, ?_⟩
    rw [hr, ← List.append_cancel_left (congrArg Prod.fst heq)]
  · rintro ⟨g', h⟩
    exact ⟨g', by rw [h, Option.map_some]⟩

def emptyBlock (type : ℕ) (h : type < 2^32) : Block := ⟨false, type, [], h, by decide⟩

def onePacket : Block := epbBlock false 0 [1, 2, 3, 4] (by decide)

theorem onePacket_file : WellFormed (shbBlock false) ([idbBlock false] ++ [onePacket]) ∧
    (readFile (fileBytes (shbBlock false :: ([idbBlock false] ++ [onePacket]))) 4) =
      some ([[1, 2, 3, 4]], ⟨84, true, false, true, true, false, true⟩) := by
  refine ⟨⟨rfl, shbBlock_sound false, ⟨.inr rfl, .inr rfl, trivial⟩, ?_⟩, by decide +kernel⟩
  intro b hb
  rcases List.mem_pair.mp hb with rfl | rfl
  · exact idbBlock_sound false
  · exact epbBlock_sound false 0 _ _

theorem unknown_block_unseen :
    (∃ g, readFile (fileBytes (shbBlock false :: ([idbBlock false] ++
        emptyBlock 0x0BAD (by decide) :: [onePacket]))) 4 = some ([[1, 2, 3, 4]], g)) ↔
      Unseen 4 (emptyBlock 0x0BAD (by decide)) [onePacket] :=
  insertion_unseen_iff onePacket_file.1 onePacket_file.2 rfl
    ⟨.inr rfl, .inr rfl, .inr rfl, trivial⟩ (by decide)

def secretBlock : Block := ⟨false, pcapDsbType, [0, 0, 0, 0, 4, 0, 0, 0, 7, 7, 7, 7], by decide,
  by decide⟩

theorem inserted_blocks_seen : WellFormed (shbBlock false) ([idbBlock false] ++ [onePacket]) ∧
    readFile (fileBytes (shbBlock false :: ([idbBlock false] ++ [onePacket]))) 4 =
      some ([[1, 2, 3, 4]], ⟨84, true, false, true, true, false, true⟩) ∧
    (¬ ∃ g, readFile (fileBytes (shbBlock false :: ([idbBlock false] ++
      emptyBlock 0x80000000 (by decide) :: [onePacket]))) 4 = some ([[1, 2, 3, 4]], g)) ∧
    ¬ ∃ g, readFile (fileBytes (shbBlock false :: ([idbBlock false] ++
      secretBlock :: [onePacket]))) 4 = some ([[1, 2, 3, 4]], g) := by
  have hhigh : (readFile (fileBytes (shbBlock false :: ([idbBlock false] ++
      emptyBlock 0x80000000 (by decide) :: [onePacket]))) 4).map Prod.fst = some [] := by
    decide +kernel
  have hsecret : (readFile (fileBytes (shbBlock false :: ([idbBlock false] ++
      secretBlock :: [onePacket]))) 4).map Prod.fst = some [[7, 7, 7, 7], [1, 2, 3, 4]] := by
    decide +kernel
  refine ⟨onePacket_file.1, onePacket_file.2, ?_, ?_⟩
  · rintro ⟨g, hg⟩
    rw [hg, Option.map_some, Option.some.injEq] at hhigh
    exact List.cons_ne_nil _ _ hhigh
  · rintro ⟨g, hg⟩
    rw [hg, Option.map_some, Option.some.injEq] at hsecret
    have hlen : 1 = 2 := congrArg List.length hsecret
    exact absurd hlen (by decide)

end DnsPkt.CaptureInsertion
