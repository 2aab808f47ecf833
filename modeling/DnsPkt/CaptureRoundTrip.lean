import DnsPkt.CaptureBlocks

/-!
# Files that are written and read again

What the writer leaves in a pcapng file is a sequence of blocks, so reading
it gives the packets of these blocks. A legacy file is a sequence of records
behind a header. Enhanced blocks and records carry the length of the packet;
simple blocks do not, and the reader takes the padding for a part of it.
-/

set_option autoImplicit false

namespace DnsPkt.CaptureRoundTrip
open DnsPkt.CheckedRun DnsPkt.CheckedRun.Run DnsPkt.Octets DnsPkt.ByteOrder DnsPkt.CaptureFile
open DnsPkt.CaptureProgress DnsPkt.CapturePackets DnsPkt.CaptureBlocks

def shbBlock (swap : Bool) : Block where
  swap := swap
  type := pcapShbType
  body := fields swap [(4, pcapBomNative), (2, 1), (2, 0), (8, 2^64-1)]
  type_lt := by decide
  small := by
    rw [length_fields]
    decide

def idbBlock (swap : Bool) : Block where
  swap := swap
  type := pcapIdbType
  body := fields swap [(2, linktypeEthernet), (2, 0), (4, pcapSnaplen)]
  type_lt := by decide
  small := by
    rw [length_fields]
    decide

theorem length_padded (pkt : Bytes) :
    (pkt ++ List.replicate (calcPadlen pkt.length) (0 : UInt8)).length =
      pkt.length+calcPadlen pkt.length := by
  rw [List.length_append, List.length_replicate]

def spbBlock (swap : Bool) (pkt : Bytes) (h : totLen 12 pkt < 2^32) : Block where
  swap := swap
  type := pcapSpbType
  body := fields swap [(4, pkt.length)] ++ (pkt ++ List.replicate (calcPadlen pkt.length) 0)
  type_lt := by decide
  small := by
    rw [List.length_append, length_padded, length_fields]
    unfold totLen at h
    simp
    omega

def epbBlock (swap : Bool) (ts : ℕ) (pkt : Bytes) (h : totLen 28 pkt < 2^32) : Block where
  swap := swap
  type := pcapEpbType
  body := fields swap [(4, 0), (4, ts/2^32), (4, ts), (4, pkt.length), (4, pkt.length)] ++
    (pkt ++ List.replicate (calcPadlen pkt.length) 0)
  type_lt := by decide
  small := by
    rw [List.length_append, length_padded, length_fields]
    unfold totLen at h
    simp
    omega

section Blocks

variable (swap : Bool)

theorem fields_append (xs ys : List (ℕ × ℕ)) :
    fields swap (xs ++ ys) = fields swap xs ++ fields swap ys := List.flatMap_append

theorem shbBlock_bytes : (shbBlock swap).bytes = shbBytes swap := by
  have htotal : (shbBlock swap).total = 28 := by
    rw [Block.total, shbBlock, length_fields]
    decide
  rw [Block.bytes, htotal, ← List.append_assoc, shbBytes]
  exact congrArg (· ++ _) (fields_append swap _ _).symm

theorem idbBlock_bytes : (idbBlock swap).bytes = idbBytes swap := by
  have htotal : (idbBlock swap).total = 20 := by
    rw [Block.total, idbBlock, length_fields]
    decide
  rw [Block.bytes, htotal, ← List.append_assoc, idbBytes]
  exact congrArg (· ++ _) (fields_append swap _ _).symm

theorem spbBlock_total (pkt : Bytes) (h : totLen 12 pkt < 2^32) :
    (spbBlock swap pkt h).total = totLen 12 pkt := by
  rw [Block.total, spbBlock, List.length_append, length_padded, length_fields, totLen]
  simp
  omega

theorem spbBlock_bytes (pkt : Bytes) (h : totLen 12 pkt < 2^32) :
    (spbBlock swap pkt h).bytes = spbBytes swap pkt := by
  rw [Block.bytes, spbBlock_total, spbBytes, spbBlock]
  simp only [List.append_assoc]
  rw [← List.append_assoc, ← fields_append]
  rfl

theorem epbBlock_total (ts : ℕ) (pkt : Bytes) (h : totLen 28 pkt < 2^32) :
    (epbBlock swap ts pkt h).total = totLen 28 pkt := by
  rw [Block.total, epbBlock, List.length_append, length_padded, length_fields, totLen]
  simp
  omega

theorem epbBlock_bytes (ts : ℕ) (pkt : Bytes) (h : totLen 28 pkt < 2^32) :
    (epbBlock swap ts pkt h).bytes = epbBytes swap ts pkt := by
  rw [Block.bytes, epbBlock_total, epbBytes, epbBlock]
  simp only [List.append_assoc]
  rw [← List.append_assoc, ← fields_append]
  rfl

theorem shbBlock_sound : (shbBlock swap).Sound where
  shb _ := by
    constructor
    · rw [shbBlock, length_fields]
      decide
    · have h := field_at swap [] 4 pcapBomNative [(2, 1), (2, 0), (8, 2^64-1)] [] (i := 0) rfl
      rw [List.append_nil, List.nil_append] at h
      exact h
  idb h := absurd h (by change ¬ pcapShbType = _; decide)
  spb h := absurd h (by change ¬ pcapShbType = _; decide)
  epb h := absurd h (by change ¬ pcapShbType = _; decide)
  dsb h := absurd h (by change ¬ pcapShbType = _; decide)

theorem idbBlock_sound : (idbBlock swap).Sound where
  shb h := absurd h (by change ¬ pcapIdbType = _; decide)
  idb _ := by
    rw [idbBlock, length_fields]
    decide
  spb h := absurd h (by change ¬ pcapIdbType = _; decide)
  epb h := absurd h (by change ¬ pcapIdbType = _; decide)
  dsb h := absurd h (by change ¬ pcapIdbType = _; decide)

theorem spbBlock_sound (pkt : Bytes) (h : totLen 12 pkt < 2^32) :
    (spbBlock swap pkt h).Sound where
  shb h := absurd h (by change ¬ pcapSpbType = _; decide)
  idb h := absurd h (by change ¬ pcapSpbType = _; decide)
  spb _ := by
    rw [spbBlock, List.length_append, length_fields]
    simp
  epb h := absurd h (by change ¬ pcapSpbType = _; decide)
  dsb h := absurd h (by change ¬ pcapSpbType = _; decide)

theorem epbBlock_field (ts : ℕ) (pkt : Bytes) (h : totLen 28 pkt < 2^32) :
    (epbBlock swap ts pkt h).field 12 = pkt.length := by
  have hf := field_at swap [(4, 0), (4, ts/2^32), (4, ts)] 4 pkt.length [(4, pkt.length)]
    (pkt ++ List.replicate (calcPadlen pkt.length) 0) (i := 12) rfl
  refine hf.trans (Nat.mod_eq_of_lt ?_)
  unfold totLen at h
  omega

theorem epbBlock_sound (ts : ℕ) (pkt : Bytes) (h : totLen 28 pkt < 2^32) :
    (epbBlock swap ts pkt h).Sound where
  shb h := absurd h (by change ¬ pcapEpbType = _; decide)
  idb h := absurd h (by change ¬ pcapEpbType = _; decide)
  spb h := absurd h (by change ¬ pcapEpbType = _; decide)
  epb _ := by
    rw [epbBlock_field, epbBlock, List.length_append, length_padded, length_fields]
    simp
  dsb h := absurd h (by change ¬ pcapEpbType = _; decide)

structure Yields (bufLen : ℕ) (bytes pkt : Bytes) (b : Block) : Prop where
  bytes_eq : b.bytes = bytes
  order : b.swap = swap
  sound : b.Sound
  effect : b.effect bufLen true = .packet pkt

theorem offer_of_fits {bufLen : ℕ} {pkt : Bytes} (hne : pkt ≠ []) (hfit : pkt.length ≤ bufLen) :
    offer bufLen pkt = .packet pkt := by
  rw [offer, if_neg (by simp [hne, hfit])]

theorem epb_yields {bufLen : ℕ} (ts : ℕ) {pkt : Bytes} (hne : pkt ≠ [])
    (hfit : pkt.length ≤ bufLen) (h : totLen 28 pkt < 2^32) :
    Yields swap bufLen (epbBytes swap ts pkt) pkt (epbBlock swap ts pkt h) where
  bytes_eq := epbBlock_bytes swap ts pkt h
  order := rfl
  sound := epbBlock_sound swap ts pkt h
  effect := by
    have hdata : slice (epbBlock swap ts pkt h).body 20 pkt.length = pkt := by
      have hlen : (fields swap [(4, 0), (4, ts/2^32), (4, ts), (4, pkt.length),
        (4, pkt.length)]).length = 20 := length_fields _ _
      rw [epbBlock, ← hlen]
      exact slice_at_end _ _ _
    have hbody := epbBlock_field swap ts pkt h
    unfold Block.effect
    rw [hbody, hdata]
    exact offer_of_fits hne hfit

theorem spbBlock_effect {bufLen : ℕ} (pkt : Bytes) (h : totLen 12 pkt < 2^32) :
    (spbBlock swap pkt h).effect bufLen true =
      offer bufLen (pkt ++ List.replicate (calcPadlen pkt.length) 0) := by
  have hdata : (spbBlock swap pkt h).body.drop 4 =
      pkt ++ List.replicate (calcPadlen pkt.length) 0 := by
    have hlen : (fields swap [(4, pkt.length)]).length = 4 := length_fields _ _
    have hdrop : (fields swap [(4, pkt.length)] ++ (pkt ++ List.replicate
        (calcPadlen pkt.length) 0)).drop (fields swap [(4, pkt.length)]).length =
          pkt ++ List.replicate (calcPadlen pkt.length) 0 := List.drop_left
    rw [hlen] at hdrop
    exact hdrop
  unfold Block.effect
  rw [hdata]
  rfl

theorem spb_yields {bufLen : ℕ} {pkt : Bytes} (hne : pkt ≠ [])
    (hfit : pkt.length+calcPadlen pkt.length ≤ bufLen) (h : totLen 12 pkt < 2^32) :
    Yields swap bufLen (spbBytes swap pkt)
      (pkt ++ List.replicate (calcPadlen pkt.length) 0) (spbBlock swap pkt h) where
  bytes_eq := spbBlock_bytes swap pkt h
  order := rfl
  sound := spbBlock_sound swap pkt h
  effect := by
    rw [spbBlock_effect]
    exact offer_of_fits (by simp [hne]) (by rwa [length_padded])

/-- A list of packets is written as blocks that the reader gives back. -/
theorem blocks_of_packets {bufLen : ℕ} {pkts : List (ℕ × Bytes)} {enc back : ℕ × Bytes → Bytes}
    (h : ∀ p ∈ pkts, ∃ b, Yields swap bufLen (enc p) (back p) b) :
    ∃ bs, fileBytes bs = pkts.flatMap enc ∧ InOrder swap bs ∧ (∀ b ∈ bs, b.Sound) ∧
      packets bufLen true bs = some (pkts.map back) := by
  induction pkts with
  | nil => exact ⟨[], rfl, trivial, by simp, rfl⟩
  | cons p pkts ih =>
    obtain ⟨bs, hbytes, horder, hsound, hpackets⟩ := ih fun q hq => h q (List.mem_cons_of_mem _ hq)
    obtain ⟨b, hb⟩ := h p (List.mem_cons_self ..)
    refine ⟨b :: bs, ?_, ⟨.inr hb.order, hb.order ▸ horder⟩,
      List.forall_mem_cons.mpr ⟨hb.sound, hsound⟩, ?_⟩
    · rw [List.flatMap_cons, ← hbytes, ← hb.bytes_eq]
      rfl
    · rw [packets, hb.effect]
      dsimp only
      rw [hpackets, Option.map_some, List.map_cons]

end Blocks

section Written

variable (swap : Bool)

def packetBytes (useSpb : Bool) (p : ℕ × Bytes) : Bytes :=
  if useSpb then spbBytes swap p.2 else epbBytes swap p.1 p.2

theorem written_packets (useSpb : Bool) (pkts : List (ℕ × Bytes)) (out : Bytes) :
    (pkts.foldl (fun w p => pcapWrite swap w p.1 p.2) ⟨out, true, useSpb, true⟩).out =
      out ++ pkts.flatMap (packetBytes swap useSpb) := by
  induction pkts generalizing out with
  | nil => simp
  | cons p pkts ih =>
    have hstep : pcapWrite swap ⟨out, true, useSpb, true⟩ p.1 p.2 =
        ⟨out ++ packetBytes swap useSpb p, true, useSpb, true⟩ := rfl
    rw [List.foldl_cons, hstep, ih, List.flatMap_cons, List.append_assoc]

theorem written_ng (useSpb : Bool) (pkts : List (ℕ × Bytes)) :
    written swap true useSpb pkts = shbBytes swap ++
      if pkts = [] then [] else idbBytes swap ++ pkts.flatMap (packetBytes swap useSpb) := by
  cases pkts with
  | nil => exact (List.append_nil _).symm
  | cons p pkts =>
    have hstep : pcapWrite swap (pcapCreate swap true useSpb) p.1 p.2 =
        ⟨shbBytes swap ++ idbBytes swap ++ packetBytes swap useSpb p, true, useSpb, true⟩ := rfl
    rw [written, List.foldl_cons, hstep, written_packets, if_neg (by simp), List.flatMap_cons]
    simp only [List.append_assoc]

theorem written_records (useSpb : Bool) (pkts : List (ℕ × Bytes)) (out : Bytes) :
    (pkts.foldl (fun w p => pcapWrite swap w p.1 p.2) ⟨out, false, useSpb, false⟩).out =
      out ++ pkts.flatMap fun p => recBytes swap p.1 p.2 := by
  induction pkts generalizing out with
  | nil => simp
  | cons p pkts ih =>
    have hstep : pcapWrite swap ⟨out, false, useSpb, false⟩ p.1 p.2 =
        ⟨out ++ recBytes swap p.1 p.2, false, useSpb, false⟩ := rfl
    rw [List.foldl_cons, hstep, ih, List.flatMap_cons, List.append_assoc]

theorem written_legacy (useSpb : Bool) (pkts : List (ℕ × Bytes)) :
    written swap false useSpb pkts = hdrBytes swap ++ pkts.flatMap fun p => recBytes swap p.1 p.2 :=
  written_records swap useSpb pkts (hdrBytes swap)

/-- A file of blocks is read as the packets that its blocks give back. -/
theorem readFile_ng (useSpb : Bool) {bufLen : ℕ} {pkts : List (ℕ × Bytes)}
    {back : ℕ × Bytes → Bytes}
    (h : ∀ p ∈ pkts, ∃ b, Yields swap bufLen (packetBytes swap useSpb p) (back p) b) :
    ∃ f g, pcapOpen (written swap true useSpb pkts) = some f ∧ f.isNg = true ∧
      readFile (written swap true useSpb pkts) bufLen = some (pkts.map back, g) ∧
      g.haveEof = true := by
  have hfile : ∃ bs, WellFormed (shbBlock swap) bs ∧
      fileBytes (shbBlock swap :: bs) = written swap true useSpb pkts ∧
      packets bufLen false bs = some (pkts.map back) := by
    rw [written_ng]
    by_cases hnil : pkts = []
    · refine ⟨[], ⟨rfl, shbBlock_sound swap, trivial, by simp⟩, ?_, by rw [hnil]; rfl⟩
      rw [if_pos hnil, ← shbBlock_bytes]
      rfl
    · obtain ⟨bs, hbytes, horder, hsound, hpackets⟩ := blocks_of_packets swap h
      refine ⟨idbBlock swap :: bs, ⟨rfl, shbBlock_sound swap, ⟨.inr rfl, horder⟩,
        List.forall_mem_cons.mpr ⟨idbBlock_sound swap, hsound⟩⟩, ?_, hpackets⟩
      rw [if_neg hnil, ← hbytes, ← shbBlock_bytes, ← idbBlock_bytes]
      rfl
  obtain ⟨bs, hwf, hbytes, hpackets⟩ := hfile
  obtain ⟨f, hopen, hat, -, -⟩ := pcapOpen_run hwf []
  rw [List.append_nil, hbytes] at hopen
  obtain ⟨g, hread, heof⟩ := readFile_complete hwf hpackets
  rw [hbytes] at hread
  exact ⟨f, g, hopen, hat.ng, hread, heof⟩

structure AtRecords (data : Bytes) (f : PcapFile) (pkts : List (ℕ × Bytes)) : Prop where
  legacy : f.isNg = false
  noErr : f.sysErr = false
  noEof : f.haveEof = false
  order : f.mustSwap = swap
  left : ∃ before, data = before ++ pkts.flatMap (fun p => recBytes swap p.1 p.2) ∧
    f.pos = before.length

theorem hdrBytes_magic (rest : Bytes) :
    load (slice (hdrBytes swap ++ rest) 0 4) =
      if swap then pcapMagicBeUsec else pcapMagicLeUsec := by
  have hslice : slice (hdrBytes swap ++ rest) 0 4 = storeAs swap 4 pcapMagicLeUsec := by
    have h := slice_at_end [] (storeAs swap 4 pcapMagicLeUsec)
      (fields swap [(2, 2), (2, 4), (4, 0), (4, 0), (4, pcapSnaplen), (4, linktypeEthernet)] ++
        rest)
    rw [length_storeAs, List.nil_append, ← List.append_assoc] at h
    exact h
  rw [hslice]
  cases swap <;> decide

theorem length_hdrBytes : (hdrBytes swap).length = 24 := length_fields _ _

/-- A file with a magic number of the legacy format is opened in its byte order. -/
theorem pcapOpen_magic {data : Bytes} (hlen : 24 ≤ data.length)
    (hmagic : pcapIslg (load (slice data 0 4))) : pcapOpen data =
      some ⟨24, false, !pcapIsnative (load (slice data 0 4)), false, false, false, false⟩ := by
  have hdetect : pcapDetectFmt data ⟨0, false, false, false, false, false, false⟩ =
        .ok false ⟨0, false, false, false, false, false, false⟩ := by
    unfold pcapDetectFmt
    rw [bind_of_ok (pcapReadData_run _ (show 0+4 ≤ _ by omega)), bind_of_ok (modify_run _ _),
      if_pos hmagic]
    rfl
  have hhdr : pcapReadHdr data ⟨0, false, false, false, false, false, false⟩ =
      .ok () ⟨24, false, !pcapIsnative (load (slice data 0 4)), false, false, false, false⟩ := by
    unfold pcapReadHdr
    rw [bind_of_ok (pcapReadData_run _ (show 0+24 ≤ _ by omega)),
      slice_slice _ _ (show 0+4 ≤ 24 by decide)]
    cases pcapIsnative (load (slice data (0+0) 4)) <;> rfl
  unfold pcapOpen
  dsimp only
  rw [bind_of_ok hdetect, bind_of_ok (modify_run _ _), if_neg (by decide)]
  dsimp only
  rw [hhdr]

theorem pcapOpen_legacy (rest : Bytes) : pcapOpen (hdrBytes swap ++ rest) =
    some ⟨24, false, swap, false, false, false, false⟩ := by
  have hlen : 24 ≤ (hdrBytes swap ++ rest).length := by
    rw [List.length_append, length_hdrBytes]
    omega
  have hmagic := hdrBytes_magic swap rest
  rw [pcapOpen_magic hlen (by rw [hmagic]; cases swap <;> decide), hmagic]
  cases swap <;> rfl

section Records

variable {swap} {data : Bytes} {f : PcapFile} {p : ℕ × Bytes} {pkts : List (ℕ × Bytes)} {bufLen : ℕ}

theorem AtRecords.next (h : AtRecords swap data f (p :: pkts)) :
    AtRecords swap data { f with pos := f.pos+16+p.2.length } pkts where
  legacy := h.legacy
  noErr := h.noErr
  noEof := h.noEof
  order := h.order
  left := by
    obtain ⟨before, hdata, hpos⟩ := h.left
    refine ⟨before ++ recBytes swap p.1 p.2,
      by rw [hdata, List.flatMap_cons, List.append_assoc], ?_⟩
    rw [recBytes, List.length_append, List.length_append, length_fields, hpos]
    simp
    omega

theorem AtRecords.data_eq (h : AtRecords swap data f (p :: pkts)) :
    slice data (f.pos+16) p.2.length = p.2 ∧ f.pos+16+p.2.length ≤ data.length := by
  obtain ⟨before, hdata, hpos⟩ := h.left
  have hlen : (fields swap [(4, p.1/1000000), (4, p.1 % 1000000), (4, p.2.length),
      (4, p.2.length)]).length = 16 := length_fields _ _
  rw [hdata, hpos, List.flatMap_cons, recBytes, slice_behind, List.append_assoc]
  constructor
  · have hslice := slice_at_end (fields swap [(4, p.1/1000000), (4, p.1 % 1000000),
      (4, p.2.length), (4, p.2.length)]) p.2 (pkts.flatMap fun p => recBytes swap p.1 p.2)
    rw [hlen] at hslice
    exact hslice
  · simp only [List.length_append, hlen]
    omega

/-- The length of a packet is kept in four bytes. -/
theorem AtRecords.inclLen (h : AtRecords swap data f (p :: pkts)) :
    word data f 8 = p.2.length % 2^32 := by
  obtain ⟨before, hdata, hpos⟩ := h.left
  have hfield := field_at swap [(4, p.1/1000000), (4, p.1 % 1000000)] 4 p.2.length
    [(4, p.2.length)] (p.2 ++ pkts.flatMap fun p => recBytes swap p.1 p.2) (i := 8) rfl
  rw [word, hdata, hpos, h.order, slice_behind, List.flatMap_cons, recBytes, List.append_assoc]
  exact hfield

theorem pcapReadRec_eq (h : AtRecords swap data f (p :: pkts)) :
    pcapReadRec data bufLen f = if bufLen < p.2.length % 2^32 then
        .exit pcapFail { f with pos := f.pos+16 }
      else pcapReadData data (p.2.length % 2^32) { f with pos := f.pos+16 } := by
  have hin := h.data_eq.2
  unfold pcapReadRec
  rw [bind_of_ok (pcapReadData_run data (show f.pos+16 ≤ data.length by omega)), u32_bind,
    guard_run, header_word data f (by decide), h.inclLen]

/-- A record whose length fits its field is read as it was written. -/
theorem pcapReadRec_run (h : AtRecords swap data f (p :: pkts)) (hfit : p.2.length ≤ bufLen)
    (hlt : p.2.length < 2^32) :
    pcapReadRec data bufLen f = .ok p.2 { f with pos := f.pos+16+p.2.length } := by
  obtain ⟨hdata, hin⟩ := h.data_eq
  rw [pcapReadRec_eq h, Nat.mod_eq_of_lt hlt, if_neg (not_lt.mpr hfit), pcapReadData_run data hin]
  exact congrArg (Outcome.ok · _) hdata

theorem pcapRead_legacy (hlegacy : f.isNg = false) (hnoErr : f.sysErr = false)
    (hnoEof : f.haveEof = false) :
    pcapRead data bufLen f = match pcapReadRec data bufLen f with
      | .exit _ g => .ok [] g
      | o => o := by
  have hgo : ¬(f.sysErr ∨ f.haveEof) := by simp [hnoErr, hnoEof]
  have hrun : readPkt data bufLen f = pcapReadRec data bufLen f := by
    rw [readPkt, if_neg (by simp [hlegacy])]
  cases hr : pcapReadRec data bufLen f with
  | ok r g => rw [pcapRead, if_neg hgo, hrun, hr]
  | exit e g => rw [pcapRead, if_neg hgo, hrun, hr]
  | fault c => rw [pcapRead, if_neg hgo, hrun, hr]

theorem pcapReadRec_end (h : f.pos = data.length) :
    pcapReadRec data bufLen f = .exit pcapEof { f with haveEof := true } := by
  have hempty : slice data f.pos 16 = [] := by
    rw [h, slice]
    simp
  refine bind_of_exit ?_ _
  unfold pcapReadData
  simp [hempty]

theorem AtRecords.call_eq (h : AtRecords swap data f pkts) :
    pcapRead data bufLen f = match pcapReadRec data bufLen f with
      | .exit _ g => .ok [] g
      | o => o := pcapRead_legacy h.legacy h.noErr h.noEof

theorem records_eof (bufLen : ℕ) (h : AtRecords swap data f []) :
    ∃ g, pcapRead data bufLen f = .ok [] g ∧ g.haveEof = true := by
  obtain ⟨before, hdata, hpos⟩ := h.left
  have hend : f.pos = data.length := by rw [hdata, hpos, List.flatMap_nil, List.append_nil]
  exact ⟨_, by rw [h.call_eq, pcapReadRec_end hend], rfl⟩

theorem readLoop_records (h : AtRecords swap data f pkts)
    (hp : ∀ p ∈ pkts, p.2 ≠ [] ∧ p.2.length ≤ bufLen ∧ p.2.length < 2^32) {k : ℕ}
    (hk : pkts.length < k) :
    ∃ g, readLoop data bufLen k f = some (pkts.map Prod.snd, g) ∧ g.haveEof = true := by
  induction pkts generalizing f k with
  | nil =>
    obtain ⟨g, hg, heof⟩ := records_eof bufLen h
    obtain ⟨j, rfl⟩ : ∃ j, k = j+1 := ⟨k-1, by omega⟩
    exact ⟨g, readLoop_stop data bufLen hg, heof⟩
  | cons p pkts ih =>
    obtain ⟨⟨hne, hfit, hlt⟩, hrest⟩ := List.forall_mem_cons.mp hp
    rw [List.length_cons] at hk
    obtain ⟨j, rfl⟩ : ∃ j, k = j+1 := ⟨k-1, by omega⟩
    obtain ⟨g, hg, heof⟩ := ih h.next hrest (k := j) (by omega)
    have hread : pcapRead data bufLen f = .ok p.2 { f with pos := f.pos+16+p.2.length } := by
      rw [h.call_eq, pcapReadRec_run h hfit hlt]
    exact ⟨g, by rw [readLoop_next data bufLen hne hread, hg, Option.map_some, List.map_cons], heof⟩

end Records

theorem opened_records (pkts : List (ℕ × Bytes)) :
    AtRecords swap (hdrBytes swap ++ pkts.flatMap fun p => recBytes swap p.1 p.2)
      ⟨24, false, swap, false, false, false, false⟩ pkts :=
  ⟨rfl, rfl, rfl, rfl, hdrBytes swap, rfl, (length_hdrBytes swap).symm⟩

theorem length_records (pkts : List (ℕ × Bytes)) :
    pkts.length ≤ (pkts.flatMap fun p => recBytes swap p.1 p.2).length := by
  induction pkts with
  | nil => exact le_rfl
  | cons p pkts ih =>
    have hlen : (fields swap [(4, p.1/1000000), (4, p.1 % 1000000), (4, p.2.length),
        (4, p.2.length)]).length = 16 := length_fields _ _
    rw [List.flatMap_cons, List.length_append, List.length_cons, recBytes, List.length_append, hlen]
    omega

theorem readFile_legacy (useSpb : Bool) {bufLen : ℕ} {pkts : List (ℕ × Bytes)}
    (hp : ∀ p ∈ pkts, p.2 ≠ [] ∧ p.2.length ≤ bufLen ∧ p.2.length < 2^32) :
    ∃ f g, pcapOpen (written swap false useSpb pkts) = some f ∧ f.isNg = false ∧
      readFile (written swap false useSpb pkts) bufLen = some (pkts.map Prod.snd, g) ∧
      g.haveEof = true := by
  have hlen := length_records swap pkts
  rw [written_legacy]
  obtain ⟨g, hg, heof⟩ := readLoop_records (opened_records swap pkts) hp
    (k := (hdrBytes swap ++ pkts.flatMap fun p => recBytes swap p.1 p.2).length+1)
    (by rw [List.length_append]; omega)
  refine ⟨_, g, pcapOpen_legacy swap _, rfl, ?_, heof⟩
  rw [readFile, pcapOpen_legacy, Option.bind_some, hg]

/-- The largest length that the file has a field for: of the packet in a legacy file, of its
block in the other. -/
def fieldLen (isNg : Bool) (pkt : Bytes) : ℕ := if isNg then totLen 28 pkt else pkt.length

/-- Packets that fit the buffer and the fields of the format come back as they were
written, in both formats and both byte orders. -/
theorem written_read (isNg : Bool) {bufLen : ℕ} {pkts : List (ℕ × Bytes)}
    (hp : ∀ p ∈ pkts, p.2 ≠ [] ∧ p.2.length ≤ bufLen ∧ fieldLen isNg p.2 < 2^32) :
    ∃ f g, pcapOpen (written swap isNg false pkts) = some f ∧ f.isNg = isNg ∧
      readFile (written swap isNg false pkts) bufLen = some (pkts.map Prod.snd, g) ∧
      g.haveEof = true := by
  cases isNg with
  | false => exact readFile_legacy swap false hp
  | true =>
    apply readFile_ng swap false
    intro p hmem
    obtain ⟨hne, hfit, hlt⟩ := hp p hmem
    exact ⟨_, epb_yields swap p.1 hne hfit hlt⟩

theorem two_packets_read : ∃ f g, pcapOpen (written true true false [(5, [1, 2, 3]), (6, [4])]) =
      some f ∧ f.isNg = true ∧
    readFile (written true true false [(5, [1, 2, 3]), (6, [4])]) 3 =
      some ([[1, 2, 3], [4]], g) ∧ g.haveEof = true :=
  written_read true true (by decide)

/-- A record of `2^32` bytes claims to be empty. -/
theorem record_lost {pkt : Bytes} (hlen : pkt.length = 2^32) (bufLen : ℕ) :
    ∃ g, readFile (written swap false false [(0, pkt)]) bufLen = some ([], g) := by
  have hat := opened_records swap [(0, pkt)]
  have hread : pcapReadRec (hdrBytes swap ++ [(0, pkt)].flatMap fun p => recBytes swap p.1 p.2)
      bufLen ⟨24, false, swap, false, false, false, false⟩ =
        .ok [] ⟨40, false, swap, false, false, false, false⟩ := by
    rw [pcapReadRec_eq hat]
    change (if bufLen < pkt.length % 2^32 then _ else pcapReadData _ (pkt.length % 2^32) _) = _
    rw [hlen, Nat.mod_self, if_neg (Nat.not_lt_zero _), pcapReadData]
    simp [slice]
  refine ⟨⟨40, false, swap, false, false, false, false⟩, ?_⟩
  rw [written_legacy, readFile, pcapOpen_legacy, Option.bind_some]
  exact readLoop_stop _ _ (by rw [hat.call_eq, hread])

def hugePacket : Bytes := List.replicate (2^32) 0

theorem length_hugePacket : hugePacket.length = 2^32 := List.length_replicate

theorem huge_packet_lost : hugePacket ≠ [] ∧ hugePacket.length ≤ 2^32 ∧
    ¬ ∃ g, readFile (written false false false [(0, hugePacket)]) (2^32) =
      some ([hugePacket], g) := by
  refine ⟨?_, length_hugePacket.le, ?_⟩
  · apply List.ne_nil_of_length_pos
    rw [length_hugePacket]
    decide
  · rintro ⟨g, hg⟩
    obtain ⟨t, ht⟩ := record_lost false length_hugePacket (2^32)
    rw [ht] at hg
    have hnil : ([] : List Bytes) = [hugePacket] := congrArg Prod.fst (Option.some.inj hg)
    exact List.cons_ne_nil _ _ hnil.symm

def SpbBlocks (pkts : List (ℕ × Bytes)) (bs : List Block) : Prop :=
  List.Forall₂ (fun p b => ∃ h, b = spbBlock swap p.2 h) pkts bs

theorem spbBlocks_exist {pkts : List (ℕ × Bytes)} (h : ∀ p ∈ pkts, p.2.length ≤ pcapSnaplen) :
    ∃ bs, SpbBlocks swap pkts bs ∧ fileBytes bs = pkts.flatMap (packetBytes swap true) ∧
      InOrder swap bs ∧ ∀ b ∈ bs, b.Sound := by
  induction pkts with
  | nil => exact ⟨[], .nil, rfl, trivial, by simp⟩
  | cons p pkts ih =>
    obtain ⟨hp, hrest⟩ := List.forall_mem_cons.mp h
    obtain ⟨bs, hbs, hbytes, horder, hsound⟩ := ih hrest
    have hlt : totLen 12 p.2 < 2^32 := by
      unfold totLen calcPadlen
      simp only [pcapSnaplen] at hp
      omega
    refine ⟨spbBlock swap p.2 hlt :: bs, .cons ⟨hlt, rfl⟩ hbs, ?_, ⟨.inr rfl, horder⟩,
      List.forall_mem_cons.mpr ⟨spbBlock_sound swap p.2 hlt, hsound⟩⟩
    rw [fileBytes, List.flatMap_cons, spbBlock_bytes, List.flatMap_cons, ← hbytes]
    rfl

/-- The loop gives packets back from simple blocks only where there was no padding. -/
theorem aligned_of_read {data : Bytes} {f : PcapFile} {pkts : List (ℕ × Bytes)} {bs : List Block}
    {bufLen : ℕ} (h : At data f bs []) (hidb : f.haveIdb = true) (hbs : SpbBlocks swap pkts bs)
    {k : ℕ} {g : PcapFile} (hr : readLoop data bufLen k f = some (pkts.map Prod.snd, g)) :
    ∀ p ∈ pkts, p.2.length % 4 = 0 := by
  induction hbs generalizing f k g with
  | nil => simp
  | @cons p b pkts bs hpb hrest ih =>
    obtain ⟨hlt, rfl⟩ := hpb
    obtain ⟨j, rfl⟩ : ∃ j, k = j+1 := by
      cases k with
      | zero => cases hr
      | succ j => exact ⟨j, rfl⟩
    have hround := xpbRound_follows bufLen h
    rw [hidb, spbBlock_effect, offer] at hround
    split at hround
    · obtain ⟨t, ht, -⟩ := pcapRead_stops h hround
      rw [readLoop_stop data bufLen ht] at hr
      cases hr
    · next hgo =>
      rw [readLoop_next data bufLen (fun hnil => hgo (.inl hnil)) (pcapRead_packet h hround)] at hr
      obtain ⟨r, hr', heq⟩ := Option.map_eq_some_iff.mp hr
      obtain ⟨hhead, htail⟩ := List.cons.inj (congrArg Prod.fst heq)
      have hlen := congrArg List.length hhead
      rw [length_padded] at hlen
      refine List.forall_mem_cons.mpr ⟨?_, ih h.next ?_ (k := j) (g := r.2) ?_⟩
      · unfold calcPadlen at hlen
        omega
      · simp [past, hidb]
      · rw [hr', ← htail]

/-- Packets come back from simple blocks exactly when none of them needed padding. -/
theorem spb_read_iff {bufLen : ℕ} {pkts : List (ℕ × Bytes)}
    (hp : ∀ p ∈ pkts, p.2 ≠ [] ∧ p.2.length ≤ bufLen ∧ p.2.length ≤ pcapSnaplen) :
    (∃ g, readFile (written swap true true pkts) bufLen = some (pkts.map Prod.snd, g)) ↔
      ∀ p ∈ pkts, p.2.length % 4 = 0 := by
  constructor
  · rintro ⟨g, hg⟩
    by_cases hnil : pkts = []
    · simp [hnil]
    obtain ⟨bs, hbs, hbytes, horder, hsound⟩ := spbBlocks_exist swap fun p hmem => (hp p hmem).2.2
    have hwf : WellFormed (shbBlock swap) (idbBlock swap :: bs) :=
      ⟨rfl, shbBlock_sound swap, ⟨.inr rfl, horder⟩,
        List.forall_mem_cons.mpr ⟨idbBlock_sound swap, hsound⟩⟩
    have hfile : fileBytes (shbBlock swap :: idbBlock swap :: bs) ++ [] =
        written swap true true pkts := by
      rw [written_ng, if_neg hnil, ← hbytes, ← shbBlock_bytes, ← idbBlock_bytes, List.append_nil]
      rfl
    obtain ⟨f, hopen, hat, -, -⟩ := pcapOpen_run hwf []
    rw [hfile] at hopen hat
    have hround := xpbRound_follows bufLen hat
    rw [readFile, hopen, Option.bind_some, readLoop_same _ _ (pcapRead_skip hat hround)] at hg
    exact aligned_of_read swap hat.next (by simp [past, idbBlock]) hbs hg
  · intro haligned
    have hpad : ∀ p ∈ pkts, calcPadlen p.2.length = 0 := by
      intro p hmem
      rw [calcPadlen, haligned p hmem]
    have hyields : ∀ p ∈ pkts, ∃ b, Yields swap bufLen (packetBytes swap true p) p.2 b := by
      intro p hmem
      obtain ⟨hne, hfit, hsnap⟩ := hp p hmem
      have hlt : totLen 12 p.2 < 2^32 := by
        rw [totLen, hpad p hmem]
        simp only [pcapSnaplen] at hsnap
        omega
      have hpadded : p.2.length+calcPadlen p.2.length ≤ bufLen := by rwa [hpad p hmem]
      have hy := spb_yields swap hne hpadded hlt
      rw [hpad p hmem, List.replicate_zero, List.append_nil] at hy
      exact ⟨_, hy⟩
    obtain ⟨f, g, -, -, hread, -⟩ := readFile_ng swap true hyields
    exact ⟨g, hread⟩

theorem aligned_packet_read : (∃ g, readFile (written false true true [(0, [1, 2, 3, 4])]) 4 =
    some ([(0, [1, 2, 3, 4])].map Prod.snd, g)) ↔
      ∀ p ∈ [((0 : ℕ), ([1, 2, 3, 4] : Bytes))], p.2.length % 4 = 0 :=
  spb_read_iff false (by decide)

theorem short_packet_padded : ¬ ∃ g, readFile (written false true true [(0, [1])]) 4 =
    some ([[1]], g) := by
  have hread : (readFile (written false true true [(0, [1])]) 4).map Prod.fst =
      some [[1, 0, 0, 0]] := by decide +kernel
  rintro ⟨g, hg⟩
  rw [hg, Option.map_some, Option.some.injEq] at hread
  have hne : ([[1]] : List Bytes) ≠ [[1, 0, 0, 0]] := by decide
  exact hne hread

end Written

end DnsPkt.CaptureRoundTrip
