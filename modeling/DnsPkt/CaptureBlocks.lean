import DnsPkt.CapturePackets

/-!
# Files of blocks

A pcapng file is a sequence of blocks, each of which frames its body by its
length. The reader follows the blocks of a well-formed file one by one: it
skips some, returns the data of others and stops at the rest. What it
returns from a file is read off the list of its blocks.
-/

set_option autoImplicit false

namespace DnsPkt.CaptureBlocks
open DnsPkt.CheckedRun DnsPkt.CheckedRun.Run DnsPkt.Octets DnsPkt.ByteOrder DnsPkt.CaptureFile
open DnsPkt.CaptureProgress DnsPkt.CapturePackets

structure Block where
  swap : Bool
  type : ℕ
  body : Bytes
  type_lt : type < 2^32
  small : 12+body.length < 2^32

namespace Block

def total (b : Block) : ℕ := 12+b.body.length

def bytes (b : Block) : Bytes :=
  fields b.swap [(4, b.type), (4, b.total)] ++ (b.body ++ fields b.swap [(4, b.total)])

def field (b : Block) (i : ℕ) : ℕ := loadAs b.swap (slice b.body i 4)

structure Sound (b : Block) : Prop where
  shb : b.type = pcapShbType → 16 ≤ b.body.length ∧ b.field 0 = pcapBomNative
  idb : b.type = pcapIdbType → 8 ≤ b.body.length
  spb : b.type = pcapSpbType → 4 ≤ b.body.length
  epb : b.type = pcapEpbType → 20+b.field 12 ≤ b.body.length
  dsb : b.type = pcapDsbType → 8 ≤ b.body.length

end Block

def fileBytes (bs : List Block) : Bytes := bs.flatMap Block.bytes

def InOrder : Bool → List Block → Prop
  | _, [] => True
  | swap, b :: bs => (b.type = pcapShbType ∨ b.swap = swap) ∧ InOrder b.swap bs

def lastOrder (swap : Bool) (bs : List Block) : Bool := bs.foldl (fun _ b => b.swap) swap

theorem inOrder_append (swap : Bool) (bs cs : List Block) :
    InOrder swap (bs ++ cs) ↔ InOrder swap bs ∧ InOrder (lastOrder swap bs) cs := by
  induction bs generalizing swap with
  | nil => simp [InOrder, lastOrder]
  | cons b bs ih =>
    rw [List.cons_append, InOrder, InOrder, ih, and_assoc]
    rfl

inductive Effect where
  | skip
  | stop
  | packet (pkt : Bytes)

def offer (bufLen : ℕ) (pkt : Bytes) : Effect :=
  if pkt = [] ∨ bufLen < pkt.length then .stop else .packet pkt

def Block.effect (bufLen : ℕ) (idb : Bool) (b : Block) : Effect :=
  if b.type = pcapShbType ∨ b.type = pcapIdbType then .skip
  else if b.type = pcapSpbType then
    if idb then offer bufLen (b.body.drop 4) else .stop
  else if b.type = pcapEpbType then
    if idb then offer bufLen (slice b.body 20 (b.field 12)) else .stop
  else if b.type = pcapDsbType then offer bufLen (b.body.drop 8)
  else if b.type < 2^31 then .skip
  else .stop

theorem effect_high (bufLen : ℕ) (idb : Bool) {b : Block} (h : 2^31 ≤ b.type) :
    b.effect bufLen idb = .stop := by
  have hne : ∀ n : ℕ, n < 2^31 → b.type ≠ n := by
    intro n hn
    omega
  unfold Block.effect
  rw [if_neg (not_or.mpr ⟨hne _ (by decide), hne _ (by decide)⟩), if_neg (hne _ (by decide)),
    if_neg (hne _ (by decide)), if_neg (hne _ (by decide)), if_neg (not_lt.mpr h)]

def Block.Carries (b : Block) : Prop :=
  b.type = pcapSpbType ∨ b.type = pcapEpbType ∨ b.type = pcapDsbType

theorem offer_packet {bufLen : ℕ} {pkt got : Bytes} (h : offer bufLen pkt = .packet got) :
    got = pkt ∧ pkt ≠ [] := by
  unfold offer at h
  split at h
  · cases h
  · next hgo =>
    cases h
    exact ⟨rfl, fun hnil => hgo (.inl hnil)⟩

theorem offer_ne_skip (bufLen : ℕ) (pkt : Bytes) : offer bufLen pkt ≠ .skip := by
  unfold offer
  split <;> simp

theorem effect_packet {bufLen : ℕ} {idb : Bool} {b : Block} {pkt : Bytes}
    (h : b.effect bufLen idb = .packet pkt) :
    b.Carries ∧ pkt ≠ [] ∧ pkt.length ≤ b.body.length-4 := by
  unfold Block.effect at h
  split at h
  · cases h
  split at h
  · next hty =>
    split at h
    · obtain ⟨rfl, hne⟩ := offer_packet h
      exact ⟨.inl hty, hne, by rw [List.length_drop]⟩
    · cases h
  split at h
  · next hty =>
    split at h
    · obtain ⟨rfl, hne⟩ := offer_packet h
      refine ⟨.inr (.inl hty), hne, ?_⟩
      simp only [slice, List.length_take, List.length_drop]
      omega
    · cases h
  split at h
  · next hty =>
    obtain ⟨rfl, hne⟩ := offer_packet h
    refine ⟨.inr (.inr hty), hne, ?_⟩
    rw [List.length_drop]
    omega
  split at h <;> cases h

theorem effect_skip {bufLen : ℕ} {idb : Bool} {b : Block} (h : b.effect bufLen idb = .skip) :
    ¬ b.Carries := by
  unfold Block.effect at h
  split at h
  · next hty =>
    unfold Block.Carries
    rcases hty with hty | hty <;> rw [hty] <;> decide
  split at h
  · split at h
    · exact absurd h (offer_ne_skip _ _)
    · cases h
  split at h
  · split at h
    · exact absurd h (offer_ne_skip _ _)
    · cases h
  split at h
  · exact absurd h (offer_ne_skip _ _)
  · next h1 h2 h3 => exact not_or.mpr ⟨h1, not_or.mpr ⟨h2, h3⟩⟩

theorem Block.Carries.ne_idb {b : Block} (h : b.Carries) : b.type ≠ pcapIdbType := by
  rcases h with h | h | h <;> rw [h] <;> decide

/-- The packets of the blocks, if none of them makes the reader stop. -/
def packets (bufLen : ℕ) : Bool → List Block → Option (List Bytes)
  | _, [] => some []
  | idb, b :: bs => match b.effect bufLen idb with
    | .skip => packets bufLen (idb || b.type = pcapIdbType) bs
    | .stop => none
    | .packet pkt => (packets bufLen idb bs).map (pkt :: ·)

theorem packets_append (bufLen : ℕ) (idb : Bool) (bs cs : List Block) :
    packets bufLen idb (bs ++ cs) = (packets bufLen idb bs).bind fun p =>
      (packets bufLen (idb || bs.any (·.type = pcapIdbType)) cs).map (p ++ ·) := by
  induction bs generalizing idb with
  | nil => simp [packets]
  | cons b bs ih =>
    rw [List.cons_append, packets, packets]
    cases heffect : b.effect bufLen idb with
    | skip =>
      dsimp only
      rw [ih, List.any_cons, Bool.or_assoc]
    | stop => rfl
    | packet pkt =>
      have hidb := (effect_packet heffect).1.ne_idb
      dsimp only
      rw [ih, Option.map_bind, Option.bind_map]
      simp [hidb, Function.comp_def]

theorem length_packets {bufLen : ℕ} {idb : Bool} {bs : List Block} {pkts : List Bytes}
    (h : packets bufLen idb bs = some pkts) : pkts.length ≤ bs.length := by
  induction bs generalizing idb pkts with
  | nil =>
    cases h
    exact le_rfl
  | cons b bs ih =>
    rw [packets] at h
    cases heffect : b.effect bufLen idb with
    | skip =>
      rw [heffect] at h
      exact (ih h).trans (Nat.le_succ _)
    | stop =>
      rw [heffect] at h
      cases h
    | packet pkt =>
      rw [heffect] at h
      obtain ⟨more, hmore, rfl⟩ := Option.map_eq_some_iff.mp h
      exact Nat.succ_le_succ (ih hmore)

theorem packets_eq_nil {bufLen : ℕ} {idb : Bool} {bs : List Block} {pkts : List Bytes}
    (h : packets bufLen idb bs = some pkts) : pkts = [] ↔ ∀ b ∈ bs, ¬ b.Carries := by
  induction bs generalizing idb pkts with
  | nil =>
    cases h
    simp
  | cons b bs ih =>
    rw [packets] at h
    rw [List.forall_mem_cons]
    cases heffect : b.effect bufLen idb with
    | skip =>
      rw [heffect] at h
      rw [ih h]
      exact ⟨fun hall => ⟨effect_skip heffect, hall⟩, And.right⟩
    | stop =>
      rw [heffect] at h
      cases h
    | packet pkt =>
      rw [heffect] at h
      obtain ⟨more, -, rfl⟩ := Option.map_eq_some_iff.mp h
      simp [(effect_packet heffect).1]

/-- No packet is as long as its block. -/
theorem packets_short {bufLen : ℕ} {idb : Bool} {bs : List Block} {pkts : List Bytes}
    (h : packets bufLen idb bs = some pkts) : ∀ pkt ∈ pkts, pkt.length+16 < 2^32 := by
  induction bs generalizing idb pkts with
  | nil =>
    cases h
    simp
  | cons b bs ih =>
    rw [packets] at h
    cases heffect : b.effect bufLen idb with
    | skip =>
      rw [heffect] at h
      exact ih h
    | stop =>
      rw [heffect] at h
      cases h
    | packet pkt =>
      rw [heffect] at h
      obtain ⟨more, hmore, rfl⟩ := Option.map_eq_some_iff.mp h
      obtain ⟨-, hne, hlen⟩ := effect_packet heffect
      have hpos := List.length_pos_iff.mpr hne
      have hsmall := b.small
      exact List.forall_mem_cons.mpr ⟨by omega, ih hmore⟩

theorem length_bytes (b : Block) : b.bytes.length = b.total := by
  simp only [Block.bytes, List.length_append, length_fields, Block.total]
  simp
  omega

theorem bytes_type (b : Block) : loadAs b.swap (slice b.bytes 0 4) = b.type := by
  have h := field_at b.swap [] 4 b.type [(4, b.total)] (b.body ++ fields b.swap [(4, b.total)])
    (i := 0) rfl
  exact h.trans (Nat.mod_eq_of_lt b.type_lt)

theorem bytes_total (b : Block) : loadAs b.swap (slice b.bytes 4 4) = b.total := by
  have h := field_at b.swap [(4, b.type)] 4 b.total [] (b.body ++ fields b.swap [(4, b.total)])
    (i := 4) rfl
  exact h.trans (Nat.mod_eq_of_lt b.small)

theorem bytes_body (b : Block) {i n : ℕ} (h : i+n ≤ b.body.length) :
    slice b.bytes (8+i) n = slice b.body i n := by
  have hlen : (fields b.swap [(4, b.type), (4, b.total)]).length = 8 := length_fields _ _
  rw [Block.bytes, ← hlen, slice_behind, slice_append _ _ _ _ h]

/-- The file is opened, and what is left of it are blocks and a rest behind them. -/
structure At (data : Bytes) (f : PcapFile) (bs : List Block) (rest : Bytes) : Prop where
  ng : f.isNg = true
  shb : f.haveShb = true
  noErr : f.sysErr = false
  noEof : f.haveEof = false
  left : ∃ before, data = before ++ (fileBytes bs ++ rest) ∧ f.pos = before.length
  order : InOrder f.mustSwap bs
  sound : ∀ b ∈ bs, b.Sound

def past (b : Block) (f : PcapFile) : PcapFile :=
  { f with
    pos := f.pos+b.total
    mustSwap := b.swap
    haveIdb := f.haveIdb || b.type = pcapIdbType }

section At

variable {data rest : Bytes} {f : PcapFile} {b : Block} {bs : List Block}

theorem At.next (h : At data f (b :: bs) rest) : At data (past b f) bs rest where
  ng := h.ng
  shb := h.shb
  noErr := h.noErr
  noEof := h.noEof
  left := by
    obtain ⟨before, hdata, hpos⟩ := h.left
    refine ⟨before ++ b.bytes, by simp [hdata, fileBytes], ?_⟩
    rw [List.length_append, length_bytes]
    exact congrArg (·+b.total) hpos
  order := h.order.2
  sound b' hb' := h.sound b' (List.mem_cons_of_mem _ hb')

def Faces (data : Bytes) (f : PcapFile) (b : Block) : Prop :=
  ∃ before after, data = before ++ (b.bytes ++ after) ∧ f.pos = before.length

theorem At.faces (h : At data f (b :: bs) rest) : Faces data f b := by
  obtain ⟨before, hdata, hpos⟩ := h.left
  exact ⟨before, fileBytes bs ++ rest, by simp [hdata, fileBytes], hpos⟩

theorem Faces.slice_eq (h : Faces data f b) {i n : ℕ} (hin : i+n ≤ b.total) :
    slice data (f.pos+i) n = slice b.bytes i n := by
  obtain ⟨before, after, rfl, hpos⟩ := h
  rw [hpos, slice_behind, slice_append _ _ _ _ (by rwa [length_bytes])]

theorem Faces.inside (h : Faces data f b) : f.pos+b.total ≤ data.length := by
  obtain ⟨before, after, rfl, hpos⟩ := h
  rw [hpos]
  simp only [List.length_append, length_bytes]
  omega

theorem At.word_total (h : At data f (b :: bs) rest) (hs : f.mustSwap = b.swap) :
    word data f 4 = b.total := by
  rw [word, h.faces.slice_eq (by rw [Block.total]; omega), hs, bytes_total]

theorem At.word_body (h : At data f (b :: bs) rest) (hs : f.mustSwap = b.swap) {i j : ℕ}
    (hij : j = 8+i) (hin : i+4 ≤ b.body.length) : word data f j = b.field i := by
  rw [word, h.faces.slice_eq (by rw [Block.total]; omega), hs, hij, bytes_body b hin, Block.field]

/-- The type of a section header reads the same in both byte orders. -/
theorem typeAt_block (h : At data f (b :: bs) rest) : typeAt data f = toInt b.type := by
  have hbytes := h.faces.slice_eq (i := 0) (n := 4) (by rw [Block.total]; omega)
  rw [Nat.add_zero] at hbytes
  rw [typeAt, hbytes]
  rcases h.order.1 with hshb | hswap
  · have hlen : (slice b.bytes 0 4).length = 4 :=
      length_slice _ _ _ (by rw [length_bytes, Block.total]; omega)
    rw [eq_storeAs hlen (bytes_type b), hshb]
    cases f.mustSwap <;> cases b.swap <;> decide
  · rw [← hswap, bytes_type]

theorem bom_order {swap : Bool} {b : Bytes} (hlen : b.length = 4)
    (h : loadAs swap b = pcapBomNative) :
    pcapBomIsng (load b) = true ∧ (!pcapBomIsnative (load b)) = swap := by
  rw [eq_storeAs hlen h]
  cases swap <;> decide

theorem pcapReadShb_run (h : Faces data f b) (hsound : b.Sound) (hty : b.type = pcapShbType) :
    pcapReadShb data f = .ok () { past b f with haveShb := true } := by
  obtain ⟨hlen, hbom⟩ := hsound.shb hty
  have hlong := h.inside
  have htot : b.total = 12+b.body.length := rfl
  have hin : f.pos+24 ≤ data.length := by omega
  have hword : slice (slice data f.pos 24) 8 4 = slice b.body 0 4 := by
    rw [slice_slice data f.pos (by decide), h.slice_eq (by omega), bytes_body b (i := 0) (by omega)]
  obtain ⟨hisng, hswap⟩ := bom_order (length_slice b.body 0 4 (by omega)) hbom
  have htotal : loadAs b.swap (slice (slice data f.pos 24) 4 4) = b.total := by
    rw [slice_slice data f.pos (by decide), h.slice_eq (by omega), bytes_total]
  unfold pcapReadShb
  rw [bind_of_ok (pcapReadData_run data hin), bind_of_ok (modify_run _ _), hword,
    bind_when_neg (by simp [hisng]), bind_of_ok (modify_run _ _), u32_bind]
  dsimp only
  rw [hswap, htotal, bind_when_neg (by omega)]
  simp only [pcapDataSkip, modify_run, past, hty]
  rw [show f.pos+24+(b.total-24) = f.pos+b.total by omega]
  simp

theorem pcapReadIdb_run (h : At data f (b :: bs) rest) (hty : b.type = pcapIdbType) :
    pcapReadIdb data f = .ok () (past b f) := by
  have hlen := (h.sound b (List.mem_cons_self ..)).idb hty
  have hlong := h.faces.inside
  have htot : b.total = 12+b.body.length := rfl
  have hin : f.pos+16 ≤ data.length := by omega
  have hswap : b.swap = f.mustSwap := h.order.1.resolve_left (by rw [hty]; decide)
  unfold pcapReadIdb
  rw [bind_of_ok (pcapReadData_run data hin), bind_of_ok (modify_run _ _), u32_bind,
    header_word data f (by decide), h.word_total hswap.symm, bind_when_neg (by omega)]
  simp only [pcapDataSkip, modify_run, past, hty, hswap]
  rw [show f.pos+16+(b.total-16) = f.pos+b.total by omega]
  simp

theorem pcapSkipBlock_run (h : At data f (b :: bs) rest) (hswap : b.swap = f.mustSwap)
    (hidb : b.type ≠ pcapIdbType) : pcapSkipBlock data f = .ok () (past b f) := by
  have hlong := h.faces.inside
  have htot : b.total = 12+b.body.length := rfl
  have hin : f.pos+8 ≤ data.length := by omega
  unfold pcapSkipBlock
  rw [bind_of_ok (pcapReadData_run data hin), u32_bind, header_word data f (by decide),
    h.word_total hswap.symm, bind_when_neg (by omega)]
  simp only [pcapDataSkip, modify_run, past, hswap]
  rw [show f.pos+8+(b.total-8) = f.pos+b.total by omega]
  simp [hidb]

theorem past_packet (hswap : b.swap = f.mustSwap) (hidb : b.type ≠ pcapIdbType) {n : ℕ}
    (hn : n = f.pos+b.total) : { f with pos := n } = past b f := by
  simp [past, hswap, hidb, hn]

/-- The data behind the header of a block of the file. -/
theorem At.data_eq (h : At data f (b :: bs) rest) {i j n : ℕ} (hij : j = 8+i)
    (hin : i+n ≤ b.body.length) :
    slice data (f.pos+j) n = slice b.body i n ∧
      (slice data (f.pos+j) n).length = n := by
  have heq : slice data (f.pos+j) n = slice b.body i n := by
    rw [h.faces.slice_eq (by rw [Block.total]; omega), hij, bytes_body b hin]
  exact ⟨heq, by rw [heq, length_slice _ _ _ hin]⟩

variable {bufLen : ℕ}

theorem spb_run (h : At data f (b :: bs) rest) (hty : b.type = pcapSpbType)
    (hidb : f.haveIdb = true) (hfit : b.body.length-4 ≤ bufLen) :
    pcapReadSpb data bufLen f = .ok (b.body.drop 4) (past b f) := by
  have hlen := (h.sound b (List.mem_cons_self ..)).spb hty
  have hlong := h.faces.inside
  have htot : b.total = 12+b.body.length := rfl
  have hsmall := b.small
  have hswap : b.swap = f.mustSwap := h.order.1.resolve_left (by rw [hty]; decide)
  have hT := h.word_total hswap.symm
  have hcap : sub32 b.total 16 = b.body.length-4 := by
    rw [sub32_of_le (by omega) (by omega)]
    omega
  have hskip : sub32 b.total (12+(b.body.length-4)) = 4 := by
    rw [sub32_of_le (by omega) (by omega)]
    omega
  obtain ⟨hdata, hgot⟩ := h.data_eq (i := 4) (j := 12) (n := b.body.length-4) rfl (by omega)
  rw [pcapReadSpb_ok, hT, hcap, hskip]
  refine ⟨hidb, length_slice _ _ _ (by omega), by omega, hfit, hgot, ?_, ?_⟩
  · rw [hdata, slice, List.take_of_length_le (by simp)]
  · exact (past_packet hswap (by rw [hty]; decide) (by omega)).symm

theorem epb_run (h : At data f (b :: bs) rest) (hty : b.type = pcapEpbType)
    (hidb : f.haveIdb = true) (hfit : b.field 12 ≤ bufLen) :
    pcapReadEpb data bufLen f = .ok (slice b.body 20 (b.field 12)) (past b f) := by
  have hlen := (h.sound b (List.mem_cons_self ..)).epb hty
  have hlong := h.faces.inside
  have htot : b.total = 12+b.body.length := rfl
  have hsmall := b.small
  have hswap : b.swap = f.mustSwap := h.order.1.resolve_left (by rw [hty]; decide)
  have hT := h.word_total hswap.symm
  have hincl := h.word_body hswap.symm (i := 12) (j := 20) rfl (by omega)
  obtain ⟨hdata, hgot⟩ := h.data_eq (i := 20) (j := 28) (n := b.field 12) rfl (by omega)
  rw [pcapReadEpb_ok, hT, hincl, sub32_of_le (by omega) (by omega)]
  refine ⟨hidb, length_slice _ _ _ (by omega), by omega, hfit, hgot, hdata.symm, ?_⟩
  exact (past_packet hswap (by rw [hty]; decide) (by omega)).symm

theorem dsb_run (h : At data f (b :: bs) rest) (hty : b.type = pcapDsbType)
    (hfit : b.body.length-8 ≤ bufLen) :
    pcapReadDsb data bufLen f = .ok (b.body.drop 8) (past b f) := by
  have hlen := (h.sound b (List.mem_cons_self ..)).dsb hty
  have hlong := h.faces.inside
  have htot : b.total = 12+b.body.length := rfl
  have hsmall := b.small
  have hswap : b.swap = f.mustSwap := h.order.1.resolve_left (by rw [hty]; decide)
  have hT := h.word_total hswap.symm
  have hcap : sub32 b.total 20 = b.body.length-8 := by
    rw [sub32_of_le (by omega) (by omega)]
    omega
  have hskip : sub32 b.total (16+(b.body.length-8)) = 4 := by
    rw [sub32_of_le (by omega) (by omega)]
    omega
  obtain ⟨hdata, hgot⟩ := h.data_eq (i := 8) (j := 16) (n := b.body.length-8) rfl (by omega)
  rw [pcapReadDsb_ok, hT, hcap, hskip]
  refine ⟨h.shb, length_slice _ _ _ (by omega), by omega, hfit, hgot, ?_, ?_⟩
  · rw [hdata, slice, List.take_of_length_le (by simp)]
  · exact (past_packet hswap (by rw [hty]; decide) (by omega)).symm

theorem header_run {n : ℕ} (hin : f.pos+n ≤ data.length) :
    orLeave 0 (pcapReadData data n) f = .ok (slice data f.pos n) { f with pos := f.pos+n } :=
  (orLeave_ok _ _ _ _ _).mpr (pcapReadData_run data hin)

theorem spb_too_big (h : At data f (b :: bs) rest) (hty : b.type = pcapSpbType)
    (hidb : f.haveIdb = true) (hbig : bufLen < b.body.length-4) :
    pcapReadSpb data bufLen f = .exit 0 { f with pos := f.pos+12 } := by
  have hlong := h.faces.inside
  have htot : b.total = 12+b.body.length := rfl
  have hsmall := b.small
  have hcap : bufLen < sub32 b.total 16 := by
    rw [sub32_of_le (by omega) (by omega)]
    omega
  have hswap : b.swap = f.mustSwap := h.order.1.resolve_left (by rw [hty]; decide)
  unfold pcapReadSpb
  rw [bind_of_ok (get_run f), bind_when_neg (by simp [hidb]), bind_of_ok (header_run (by omega)),
    u32_bind, guard_run, guard_run, header_word data f (by decide), h.word_total hswap.symm,
    if_neg (by omega), if_pos hcap]

theorem epb_too_big (h : At data f (b :: bs) rest) (hty : b.type = pcapEpbType)
    (hidb : f.haveIdb = true) (hbig : bufLen < b.field 12) :
    pcapReadEpb data bufLen f = .exit 0 { f with pos := f.pos+28 } := by
  have hlen := (h.sound b (List.mem_cons_self ..)).epb hty
  have hlong := h.faces.inside
  have htot : b.total = 12+b.body.length := rfl
  have hswap : b.swap = f.mustSwap := h.order.1.resolve_left (by rw [hty]; decide)
  unfold pcapReadEpb
  rw [bind_of_ok (get_run f), bind_when_neg (by simp [hidb]), bind_of_ok (header_run (by omega)),
    u32_bind, u32_bind, header_word data f (by decide), header_word data f (by decide),
    h.word_total hswap.symm, h.word_body hswap.symm (i := 12) (j := 20) rfl (by omega),
    bind_when_neg (by omega), bind_when_pos hbig]
  rfl

theorem dsb_too_big (h : At data f (b :: bs) rest) (hty : b.type = pcapDsbType)
    (hbig : bufLen < b.body.length-8) :
    pcapReadDsb data bufLen f = .exit 0 { f with pos := f.pos+16 } := by
  have hlong := h.faces.inside
  have htot : b.total = 12+b.body.length := rfl
  have hsmall := b.small
  have hcap : bufLen < sub32 b.total 20 := by
    rw [sub32_of_le (by omega) (by omega)]
    omega
  have hswap : b.swap = f.mustSwap := h.order.1.resolve_left (by rw [hty]; decide)
  unfold pcapReadDsb
  rw [bind_of_ok (get_run f), bind_when_neg (by simp [h.shb]), bind_of_ok (header_run (by omega)),
    u32_bind, guard_run, guard_run, header_word data f (by decide), h.word_total hswap.symm,
    if_neg (by omega), if_pos hcap]

/-- A round ends the call without data, and not at the end of the file. -/
def Stops (o : Outcome PcapFile ℤ Endless (Option Bytes)) : Prop :=
  (∃ e t, o = .exit e t ∧ t.haveEof = false) ∨ ∃ t, o = .ok (some []) t ∧ t.haveEof = false

def Follows (b : Block) (f : PcapFile) (o : Outcome PcapFile ℤ Endless (Option Bytes)) :
    Effect → Prop
  | .skip => o = .ok none (past b f)
  | .stop => Stops o
  | .packet pkt => o = .ok (some pkt) (past b f)

/-- A reader of data offers it to the caller. -/
theorem follows_offer {x : Rd Bytes} {pkt : Bytes} (hnoEof : f.haveEof = false)
    (hfit : pkt.length ≤ bufLen → x f = .ok pkt (past b f))
    (hbig : bufLen < pkt.length → ∃ t, x f = .exit 0 t ∧ t.haveEof = false) :
    Follows b f ((x >>= fun pkt => pure (some pkt)) f) (offer bufLen pkt) := by
  unfold offer
  split
  · next hstop =>
    by_cases hlen : pkt.length ≤ bufLen
    · have hempty : pkt = [] := hstop.resolve_right (not_lt.mpr hlen)
      rw [bind_of_ok (hfit hlen), hempty]
      exact .inr ⟨past b f, rfl, hnoEof⟩
    · obtain ⟨t, ht, heof⟩ := hbig (not_le.mp hlen)
      rw [bind_of_exit ht]
      exact .inl ⟨0, t, rfl, heof⟩
  · next hgo =>
    rw [bind_of_ok (hfit (by omega))]
    rfl

theorem orLeave_bind {α β : Type} {x : Rd α} {c : ℤ} {a : α} {t : PcapFile} (h : x f = .ok a t)
    (k : α → Rd β) : (orLeave c x >>= k) f = k a t :=
  bind_of_ok ((orLeave_ok c x f t a).mpr h) k

theorem toInt_eq_iff {m n : ℕ} (hm : m < 2^32) (hn : n < 2^31) : toInt m = n ↔ m = n := by
  unfold toInt
  split <;> omega

theorem toInt_neg_iff {m : ℕ} (hm : m < 2^32) : toInt m < 0 ↔ 2^31 ≤ m := by
  unfold toInt
  split <;> omega

/-- A round in front of a block of the file does what the effect of the block says. -/
theorem xpbRound_follows (bufLen : ℕ) (h : At data f (b :: bs) rest) :
    Follows b f (xpbRound data bufLen f) (b.effect bufLen f.haveIdb) := by
  have htot : b.total = 12+b.body.length := rfl
  have hlong := h.faces.inside
  have hin : f.pos+4 ≤ data.length := by omega
  have htype := typeAt_block h
  have hlt := b.type_lt
  have hswap : b.type ≠ pcapShbType → b.swap = f.mustSwap := h.order.1.resolve_left
  by_cases hhigh : 2^31 ≤ b.type
  · have hneg : typeAt data f < 0 := by rwa [htype, toInt_neg_iff hlt]
    rw [effect_high bufLen f.haveIdb hhigh, xpbRound, bind_of_ok (pcapPeekBlock_run data hin),
      bind_when_pos hneg]
    exact .inl ⟨0, f, rfl, h.noEof⟩
  have hcmp : ∀ n : ℕ, n < 2^31 → (typeAt data f = n ↔ b.type = n) := by
    intro n hn
    rw [htype, toInt_eq_iff hlt hn]
  rw [xpbRound, bind_of_ok (pcapPeekBlock_run data hin),
    bind_when_neg (by rw [htype, toInt_neg_iff hlt]; exact hhigh)]
  unfold Block.effect
  by_cases hshb : b.type = pcapShbType
  · rw [if_pos ((hcmp _ (by decide)).mpr hshb), if_pos (.inl hshb),
      orLeave_bind (pcapReadShb_run h.faces (h.sound b (List.mem_cons_self ..)) hshb)]
    change Outcome.ok none { past b f with haveShb := true } = .ok none (past b f)
    rw [← show (past b f).haveShb = true from h.shb]
  rw [if_neg (mt (hcmp _ (by decide)).mp hshb)]
  by_cases hidb : b.type = pcapIdbType
  · rw [if_pos ((hcmp _ (by decide)).mpr hidb), if_pos (.inr hidb),
      orLeave_bind (pcapReadIdb_run h hidb)]
    rfl
  rw [if_neg (mt (hcmp _ (by decide)).mp hidb), if_neg (not_or.mpr ⟨hshb, hidb⟩)]
  by_cases hspb : b.type = pcapSpbType
  · rw [if_pos ((hcmp _ (by decide)).mpr hspb), if_pos hspb]
    cases hhave : f.haveIdb with
    | false =>
      refine .inl ⟨0, f, bind_of_exit ?_ _, h.noEof⟩
      rw [pcapReadSpb, bind_of_ok (get_run f), guard_run, if_pos (by simp [hhave])]
    | true =>
      apply follows_offer h.noEof
      · intro hfit
        rw [List.length_drop] at hfit
        exact spb_run h hspb hhave hfit
      · intro hbig
        rw [List.length_drop] at hbig
        exact ⟨_, spb_too_big h hspb hhave hbig, h.noEof⟩
  rw [if_neg (mt (hcmp _ (by decide)).mp hspb), if_neg hspb]
  by_cases hepb : b.type = pcapEpbType
  · rw [if_pos ((hcmp _ (by decide)).mpr hepb), if_pos hepb]
    cases hhave : f.haveIdb with
    | false =>
      refine .inl ⟨0, f, bind_of_exit ?_ _, h.noEof⟩
      rw [pcapReadEpb, bind_of_ok (get_run f), guard_run, if_pos (by simp [hhave])]
    | true =>
      have hlen : (slice b.body 20 (b.field 12)).length = b.field 12 :=
        length_slice _ _ _ ((h.sound b (List.mem_cons_self ..)).epb hepb)
      apply follows_offer h.noEof
      · intro hfit
        rw [hlen] at hfit
        exact epb_run h hepb hhave hfit
      · intro hbig
        rw [hlen] at hbig
        exact ⟨_, epb_too_big h hepb hhave hbig, h.noEof⟩
  rw [if_neg (mt (hcmp _ (by decide)).mp hepb), if_neg hepb]
  by_cases hdsb : b.type = pcapDsbType
  · rw [if_pos ((hcmp _ (by decide)).mpr hdsb), if_pos hdsb]
    apply follows_offer h.noEof
    · intro hfit
      rw [List.length_drop] at hfit
      exact dsb_run h hdsb hfit
    · intro hbig
      rw [List.length_drop] at hbig
      exact ⟨_, dsb_too_big h hdsb hbig, h.noEof⟩
  · rw [if_neg (mt (hcmp _ (by decide)).mp hdsb), if_neg hdsb, if_pos (by omega),
      orLeave_bind (pcapSkipBlock_run h (hswap hshb) hidb)]
    rfl

end At

section Loops

variable {data rest : Bytes} {f g : PcapFile} {b : Block} {bs : List Block} {bufLen : ℕ}

/-- Rounds beyond those that a call needs change nothing. -/
theorem pcapReadXpb_more {k : ℕ} (h : ∀ d, pcapReadXpb data bufLen k f ≠ .fault d) :
    pcapReadXpb data bufLen (k+1) f = pcapReadXpb data bufLen k f := by
  induction k generalizing f with
  | zero => exact absurd rfl (h .rounds)
  | succ k ih =>
    rw [pcapReadXpb] at h
    rw [pcapReadXpb, pcapReadXpb]
    cases hr : xpbRound data bufLen f with
    | ok r t =>
      rw [bind_of_ok hr, bind_of_ok hr]
      rw [bind_of_ok hr] at h
      cases r with
      | some pkt => rfl
      | none => exact ih h
    | exit e t => rw [bind_of_exit hr, bind_of_exit hr]
    | fault d => rw [bind_of_fault hr, bind_of_fault hr]

theorem At.call_eq (h : At data f bs rest) :
    pcapRead data bufLen f = match pcapReadXpb data bufLen (data.length+1) f with
      | .exit _ g => .ok [] g
      | o => o := by
  have hgo : ¬(f.sysErr ∨ f.haveEof) := by simp [h.noErr, h.noEof]
  have hrun : readPkt data bufLen f = pcapReadXpb data bufLen (data.length+1) f := if_pos h.ng
  cases hr : pcapReadXpb data bufLen (data.length+1) f with
  | ok r g => rw [pcapRead, if_neg hgo, hrun, hr]
  | exit e g => rw [pcapRead, if_neg hgo, hrun, hr]
  | fault c => rw [pcapRead, if_neg hgo, hrun, hr]

/-- A skipped block leaves the call as it is. -/
theorem pcapRead_skip (h : At data f (b :: bs) rest)
    (hround : xpbRound data bufLen f = .ok none (past b f)) :
    pcapRead data bufLen f = pcapRead data bufLen (past b f) := by
  obtain ⟨hmove, hpos⟩ := xpbRound_ok data bufLen hround
  have hends := (pcapReadXpb_ends data bufLen (k := data.length) (f := past b f)
    (show data.length-(past b f).pos < data.length by omega)).1
  rw [h.call_eq, h.next.call_eq, pcapReadXpb_more hends, pcapReadXpb, bind_of_ok hround]

theorem pcapRead_packet (h : At data f bs rest) {pkt : Bytes}
    (hround : xpbRound data bufLen f = .ok (some pkt) g) :
    pcapRead data bufLen f = .ok pkt g := by
  rw [h.call_eq, pcapReadXpb, bind_of_ok hround]
  rfl

theorem pcapRead_exit (h : At data f bs rest) {e : ℤ}
    (hround : xpbRound data bufLen f = .exit e g) : pcapRead data bufLen f = .ok [] g := by
  rw [h.call_eq, pcapReadXpb, bind_of_exit hround]

theorem pcapRead_stops (h : At data f bs rest) (hround : Stops (xpbRound data bufLen f)) :
    ∃ g, pcapRead data bufLen f = .ok [] g ∧ g.haveEof = false := by
  rcases hround with ⟨e, t, ht, heof⟩ | ⟨t, ht, heof⟩
  · exact ⟨t, pcapRead_exit h ht, heof⟩
  · exact ⟨t, pcapRead_packet h ht, heof⟩

/-- At the end of the file a call finds it. -/
theorem pcapRead_eof (bufLen : ℕ) (h : At data f [] []) :
    ∃ g, pcapRead data bufLen f = .ok [] g ∧ g.haveEof = true := by
  obtain ⟨before, hdata, hpos⟩ := h.left
  have hempty : slice data f.pos 4 = [] := by
    rw [hdata, hpos, slice]
    simp [fileBytes]
  have hpeek : pcapPeekBlock data f = .ok pcapEof { f with haveEof := true } := by
    refine (call_ok _ _ _ _).mpr (.inr (bind_of_exit ?_ _))
    unfold pcapReadData
    simp [hempty]
  have hround : xpbRound data bufLen f = .exit 0 { f with haveEof := true } := by
    rw [xpbRound, bind_of_ok hpeek, guard_run, if_pos (by decide)]
  exact ⟨_, pcapRead_exit h hround, rfl⟩

/-- The loop over blocks that all let it pass comes to what follows them. -/
theorem readLoop_pass (h : At data f bs rest) {pkts : List Bytes}
    (hp : packets bufLen f.haveIdb bs = some pkts) :
    ∃ t, At data t [] rest ∧ t.haveIdb = (f.haveIdb || bs.any (·.type = pcapIdbType)) ∧
      t.mustSwap = lastOrder f.mustSwap bs ∧ ∀ k, readLoop data bufLen (pkts.length+k) f =
        (readLoop data bufLen k t).map fun r => (pkts ++ r.1, r.2) := by
  induction bs generalizing f pkts with
  | nil =>
    cases hp
    refine ⟨f, h, by simp, rfl, fun k => ?_⟩
    simp
  | cons b bs ih =>
    have hround := xpbRound_follows bufLen h
    rw [packets] at hp
    cases heffect : b.effect bufLen f.haveIdb with
    | stop =>
      rw [heffect] at hp
      cases hp
    | skip =>
      rw [heffect] at hp hround
      obtain ⟨t, ht, hidb, horder, hloop⟩ := ih h.next hp
      refine ⟨t, ht, ?_, horder, fun k => ?_⟩
      · rw [hidb, List.any_cons, ← Bool.or_assoc]
        rfl
      · rw [← hloop k, readLoop_same data bufLen (pcapRead_skip h hround)]
    | packet pkt =>
      rw [heffect] at hp hround
      obtain ⟨hcarries, hne, -⟩ := effect_packet heffect
      obtain ⟨more, hmore, rfl⟩ := Option.map_eq_some_iff.mp hp
      have hidb : (past b f).haveIdb = f.haveIdb := by simp [past, hcarries.ne_idb]
      obtain ⟨t, ht, hany, horder, hloop⟩ := ih h.next (hidb ▸ hmore)
      refine ⟨t, ht, ?_, horder, fun k => ?_⟩
      · rw [hany, hidb]
        simp [hcarries.ne_idb]
      · rw [List.length_cons, show more.length+1+k = more.length+k+1 by omega,
          readLoop_next data bufLen hne (pcapRead_packet h hround), hloop k, Option.map_map]
        rfl

/-- A loop whose blocks do not all let it pass does not come to the end of the file. -/
theorem readLoop_stopped (h : At data f bs rest) (hp : packets bufLen f.haveIdb bs = none) {k : ℕ}
    {r : List Bytes × PcapFile} (hr : readLoop data bufLen k f = some r) :
    r.2.haveEof = false := by
  induction bs generalizing f k r with
  | nil => cases hp
  | cons b bs ih =>
    have hround := xpbRound_follows bufLen h
    rw [packets] at hp
    cases k with
    | zero => cases hr
    | succ k =>
      cases heffect : b.effect bufLen f.haveIdb with
      | stop =>
        rw [heffect] at hround
        obtain ⟨g, hg, heof⟩ := pcapRead_stops h hround
        rw [readLoop_stop data bufLen hg] at hr
        cases hr
        exact heof
      | skip =>
        rw [heffect] at hp hround
        rw [readLoop_same data bufLen (pcapRead_skip h hround)] at hr
        exact ih h.next hp hr
      | packet pkt =>
        rw [heffect] at hp hround
        obtain ⟨hcarries, hne, -⟩ := effect_packet heffect
        have hidb : (past b f).haveIdb = f.haveIdb := by simp [past, hcarries.ne_idb]
        rw [readLoop_next data bufLen hne (pcapRead_packet h hround)] at hr
        obtain ⟨r', hr', rfl⟩ := Option.map_eq_some_iff.mp hr
        have heof := ih h.next (hidb ▸ Option.map_eq_none_iff.mp hp) hr'
        exact heof

theorem readLoop_complete (h : At data f bs []) {pkts : List Bytes}
    (hp : packets bufLen f.haveIdb bs = some pkts) {k : ℕ} (hk : pkts.length < k) :
    ∃ g, readLoop data bufLen k f = some (pkts, g) ∧ g.haveEof = true := by
  obtain ⟨t, ht, -, -, hloop⟩ := readLoop_pass h hp
  obtain ⟨g, hg, heof⟩ := pcapRead_eof bufLen ht
  obtain ⟨j, rfl⟩ : ∃ j, k = pkts.length+(j+1) := ⟨k-pkts.length-1, by omega⟩
  refine ⟨g, ?_, heof⟩
  rw [hloop, readLoop_stop data bufLen hg, Option.map_some, List.append_nil]

end Loops

/-- A section header, and blocks behind it in its byte order or in their own section's. -/
structure WellFormed (s : Block) (bs : List Block) : Prop where
  shb : s.type = pcapShbType
  head : s.Sound
  order : InOrder s.swap bs
  sound : ∀ b ∈ bs, b.Sound

section Files

variable {s : Block} {bs : List Block} {bufLen : ℕ}

theorem pcapDetectFmt_run {data : Bytes} {f : PcapFile} (hlen : f.pos+4 ≤ data.length)
    (hmagic : load (slice data f.pos 4) = pcapShbType) :
    pcapDetectFmt data f = .ok true { f with pos := 0 } := by
  unfold pcapDetectFmt
  rw [bind_of_ok (pcapReadData_run data hlen), bind_of_ok (modify_run _ _), hmagic,
    if_neg (by decide), if_pos (by decide)]
  rfl

theorem pcapOpen_run (h : WellFormed s bs) (rest : Bytes) :
    ∃ f, pcapOpen (fileBytes (s :: bs) ++ rest) = some f ∧
      At (fileBytes (s :: bs) ++ rest) f bs rest ∧ f.haveIdb = false ∧ f.mustSwap = s.swap := by
  have hdata : fileBytes (s :: bs) ++ rest = s.bytes ++ (fileBytes bs ++ rest) := by
    simp [fileBytes]
  rw [hdata]
  have hfaces : Faces (s.bytes ++ (fileBytes bs ++ rest))
      ⟨0, true, false, false, false, false, false⟩ s := ⟨[], _, rfl, rfl⟩
  have hlong := hfaces.inside
  have htot : s.total = 12+s.body.length := rfl
  have hbytes := hfaces.slice_eq (i := 0) (n := 4) (by omega)
  have hmagic : load (slice s.bytes 0 4) = pcapShbType := by
    have hlen : (slice s.bytes 0 4).length = 4 := length_slice _ _ _ (by rw [length_bytes]; omega)
    rw [eq_storeAs hlen (bytes_type s), h.shb]
    cases s.swap <;> decide
  have hdetect := pcapDetectFmt_run (f := ⟨0, false, false, false, false, false, false⟩)
    (show 0+4 ≤ _ by omega) (hbytes ▸ hmagic)
  refine ⟨{ past s ⟨0, true, false, false, false, false, false⟩ with haveShb := true }, ?_, ?_,
    ?_, rfl⟩
  · unfold pcapOpen
    dsimp only
    rw [bind_of_ok hdetect, bind_of_ok (modify_run _ _), if_pos rfl]
    dsimp only
    rw [pcapReadShb_run hfaces h.head h.shb]
  · refine ⟨rfl, rfl, rfl, rfl, ⟨s.bytes, rfl, ?_⟩, h.order, h.sound⟩
    rw [length_bytes]
    exact Nat.zero_add _
  · simp [past, h.shb]

theorem length_fileBytes (bs : List Block) : bs.length ≤ (fileBytes bs).length := by
  induction bs with
  | nil => exact le_rfl
  | cons b bs ih =>
    rw [fileBytes, List.flatMap_cons, List.length_append, length_bytes, Block.total,
      List.length_cons]
    rw [fileBytes] at ih
    omega

/-- A file whose blocks all let the reader pass is read to its end. -/
theorem readFile_complete (h : WellFormed s bs) {pkts : List Bytes}
    (hp : packets bufLen false bs = some pkts) :
    ∃ g, readFile (fileBytes (s :: bs)) bufLen = some (pkts, g) ∧ g.haveEof = true := by
  obtain ⟨f, hopen, hat, hidb, -⟩ := pcapOpen_run h []
  rw [List.append_nil] at hopen hat
  have hlen := length_packets hp
  have hbytes := length_fileBytes (s :: bs)
  rw [List.length_cons] at hbytes
  rw [← hidb] at hp
  obtain ⟨g, hg, heof⟩ := readLoop_complete hat hp
    (k := (fileBytes (s :: bs)).length+1) (by omega)
  exact ⟨g, by rw [readFile, hopen, Option.bind_some, hg], heof⟩

/-- A well-formed file that is read to its end gives the packets of its blocks. -/
theorem packets_of_readFile (h : WellFormed s bs) {pkts : List Bytes} {g : PcapFile}
    (hr : readFile (fileBytes (s :: bs)) bufLen = some (pkts, g)) (heof : g.haveEof = true) :
    packets bufLen false bs = some pkts := by
  cases hp : packets bufLen false bs with
  | none =>
    obtain ⟨f, hopen, hat, hidb, -⟩ := pcapOpen_run h []
    rw [List.append_nil] at hopen hat
    rw [readFile, hopen, Option.bind_some] at hr
    rw [← hidb] at hp
    have := readLoop_stopped hat hp hr
    simp [heof] at this
  | some q =>
    obtain ⟨t, ht, -⟩ := readFile_complete h hp
    rw [ht] at hr
    cases hr
    rfl

end Files

end DnsPkt.CaptureBlocks
