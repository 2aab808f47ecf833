import DnsPkt.CaptureRoundTrip

/-!
# Capture files that end early

A program that is stopped while it writes leaves the beginning of a capture
file. Whatever the reader gets from the beginning of a file it gets from the
whole file as well, and in the same order. From a file of the writer that was
cut off anywhere it gets the packets whose data is still there, up to the
first one whose data is not.
-/

set_option autoImplicit false

namespace DnsPkt.InterruptedCapture
open DnsPkt.CheckedRun DnsPkt.CheckedRun.Run DnsPkt.Octets DnsPkt.ByteOrder DnsPkt.CaptureFile
open DnsPkt.CaptureProgress DnsPkt.CapturePackets DnsPkt.CaptureBlocks DnsPkt.CaptureRoundTrip

section Beginning

variable {start data : Bytes} (hp : start <+: data)

theorem slice_within {i n : ℕ} (h : (slice start i n).length = n) (hn : 0 < n) :
    i+n ≤ start.length := by
  simp only [slice, List.length_take, List.length_drop] at h
  omega

include hp

theorem slice_whole {i n : ℕ} (h : (slice start i n).length = n) :
    slice data i n = slice start i n := by
  rcases Nat.eq_zero_or_pos n with rfl | hn
  · simp [slice]
  · exact slice_extend hp i n (slice_within h hn)

theorem extends_readData (n : ℕ) : Extends (pcapReadData start n) (pcapReadData data n) := by
  intro f b g h
  obtain ⟨hlen, rfl, rfl⟩ := (readData_iff start n f g b).mp h
  have hsame := slice_whole hp hlen
  exact (readData_iff data n f _ _).mpr ⟨by rw [hsame, hlen], hsame.symm, rfl⟩

theorem readData_same {f : PcapFile} {n : ℕ} (h : f.pos+n ≤ start.length) :
    pcapReadData start n f = pcapReadData data n f := by
  have hle := hp.length_le
  rw [pcapReadData_run start h, pcapReadData_run data (h.trans hle), slice_extend hp _ _ h]

theorem word_same {f : PcapFile} {i : ℕ} (h : f.pos+i+4 ≤ start.length) :
    word start f i = word data f i := by
  rw [word, word, slice_extend hp _ _ h]

end Beginning

theorem extends_orLeave {α : Type} {x y : Rd α} (c : ℤ) (h : Extends x y) :
    Extends (orLeave c x) (orLeave c y) := by
  intro f a g hx
  exact (orLeave_ok c y f g a).mpr (h f a g ((orLeave_ok c x f g a).mp hx))

/-- A run whose first statement does the same in both files. -/
theorem bind_same {α β : Type} {x y : Rd α} {f : PcapFile} (h : x f = y f) (rest : α → Rd β) :
    (x >>= rest) f = (y >>= rest) f := by
  simp only [bind, h]

section Readers

variable {start data : Bytes} (hp : start <+: data) (bufLen : ℕ)

include hp

theorem extends_readRec : Extends (pcapReadRec start bufLen) (pcapReadRec data bufLen) := by
  apply (extends_readData hp 16).bind fun b => ?_
  apply (Extends.refl _).bind fun inclLen => ?_
  exact (Extends.refl _).bind fun _ => extends_readData hp inclLen

theorem extends_readShb : Extends (pcapReadShb start) (pcapReadShb data) :=
  (extends_readData hp 24).bind fun _ => Extends.refl _

theorem extends_readIdb : Extends (pcapReadIdb start) (pcapReadIdb data) :=
  (extends_readData hp 16).bind fun _ => Extends.refl _

theorem extends_skipBlock : Extends (pcapSkipBlock start) (pcapSkipBlock data) :=
  (extends_readData hp 8).bind fun _ => Extends.refl _

/-- The data of a packet block and what is skipped behind it. -/
theorem extends_payload (len skip : ℕ) :
    Extends (orLeave 0 (pcapReadData start len) >>= fun pkt =>
        pcapDataSkip skip >>= fun _ => pure pkt)
      (orLeave 0 (pcapReadData data len) >>= fun pkt =>
        pcapDataSkip skip >>= fun _ => pure pkt) :=
  (extends_orLeave 0 (extends_readData hp len)).bind fun _ => Extends.refl _

theorem extends_readTail (ready : PcapFile → Bool) (len : ℕ) :
    Extends (readTail start ready len bufLen) (readTail data ready len bufLen) := by
  apply (Extends.refl _).bind fun f => ?_
  apply (Extends.refl _).bind fun _ => ?_
  apply (extends_orLeave 0 (extends_readData hp len)).bind fun b => ?_
  apply (Extends.refl _).bind fun totLen => ?_
  apply (Extends.refl _).bind fun _ => ?_
  apply (Extends.refl _).bind fun _ => ?_
  apply extends_payload hp

theorem extends_readEpb : Extends (pcapReadEpb start bufLen) (pcapReadEpb data bufLen) := by
  apply (Extends.refl _).bind fun f => ?_
  apply (Extends.refl _).bind fun _ => ?_
  apply (extends_orLeave 0 (extends_readData hp 28)).bind fun b => ?_
  apply (Extends.refl _).bind fun totLen => ?_
  apply (Extends.refl _).bind fun inclLen => ?_
  apply (Extends.refl _).bind fun _ => ?_
  apply (Extends.refl _).bind fun _ => ?_
  apply extends_payload hp

theorem typeAt_same {f : PcapFile} (h : f.pos+4 ≤ start.length) :
    typeAt start f = typeAt data f := by
  rw [typeAt, typeAt, slice_extend hp _ _ h]

/-- A failure to peek is returned as a number, so the round has to be entered first. -/
theorem extends_round : Extends (xpbRound start bufLen) (xpbRound data bufLen) := by
  intro f r g h
  by_cases henter : Enters start f
  · have hin := henter.1
    have hle := hp.length_le
    have htype := typeAt_same hp hin
    have hneg : ¬ typeAt data f < 0 := by
      rw [← htype]
      exact not_lt.mpr henter.2
    rw [xpbRound, bind_of_ok (pcapPeekBlock_run start hin), htype, bind_when_neg hneg] at h
    rw [xpbRound, bind_of_ok (pcapPeekBlock_run data (by omega)), bind_when_neg hneg]
    revert h
    apply extends_ite
    · exact (extends_orLeave (-1) (extends_readShb hp)).bind fun _ => Extends.refl _
    apply extends_ite
    · exact (extends_orLeave (-1) (extends_readIdb hp)).bind fun _ => Extends.refl _
    apply extends_ite
    · rw [pcapReadSpb_tail, pcapReadSpb_tail]
      exact (extends_readTail hp bufLen _ _).bind fun _ => Extends.refl _
    apply extends_ite
    · exact (extends_readEpb hp bufLen).bind fun _ => Extends.refl _
    apply extends_ite
    · rw [pcapReadDsb_tail, pcapReadDsb_tail]
      exact (extends_readTail hp bufLen _ _).bind fun _ => Extends.refl _
    · exact (extends_orLeave (-1) (extends_skipBlock hp)).bind fun _ => Extends.refl _
  · obtain ⟨t, ht, -⟩ := xpbRound_stop start bufLen henter
    rw [ht] at h
    cases h

/-- The longer file allows more rounds. -/
theorem extends_readXpb {k n : ℕ} (hk : k ≤ n) :
    Extends (pcapReadXpb start bufLen k) (pcapReadXpb data bufLen n) := by
  induction k generalizing n with
  | zero =>
    intro f pkt g h
    cases h
  | succ k ih =>
    obtain ⟨m, rfl⟩ : ∃ m, n = m+1 := ⟨n-1, by omega⟩
    apply (extends_round hp bufLen).bind fun r => ?_
    cases r with
    | none => exact ih (by omega)
    | some pkt => exact Extends.refl _

theorem extends_readPkt : Extends (readPkt start bufLen) (readPkt data bufLen) := by
  have hle := hp.length_le
  intro f pkt g h
  unfold readPkt at h ⊢
  split at h
  · next hng =>
    rw [if_pos hng]
    exact extends_readXpb hp bufLen (by omega) f pkt g h
  · next hlegacy =>
    rw [if_neg hlegacy]
    exact extends_readRec hp bufLen f pkt g h

/-- A call that returns a packet of the beginning returns it of the whole file. -/
theorem pcapRead_whole {f g : PcapFile} {pkt : Bytes} (hne : pkt ≠ [])
    (h : pcapRead start bufLen f = .ok pkt g) : pcapRead data bufLen f = .ok pkt g := by
  unfold pcapRead at h ⊢
  split at h
  · cases h
    exact absurd rfl hne
  · next hgo =>
    rw [if_neg hgo]
    cases hr : readPkt start bufLen f with
    | ok p t =>
      rw [hr] at h
      cases h
      rw [extends_readPkt hp bufLen f pkt g hr]
    | exit e t =>
      rw [hr] at h
      cases h
      exact absurd rfl hne
    | fault d =>
      rw [hr] at h
      cases h

/-- Where the whole file has no packet its beginning has none. -/
theorem pcapRead_none {f t : PcapFile} (h : pcapRead data bufLen f = .ok [] t) :
    ∃ g, pcapRead start bufLen f = .ok [] g := by
  obtain ⟨pkt, g, hg, -⟩ := pcapRead_ends start bufLen f
  by_cases hne : pkt = []
  · exact ⟨g, hne ▸ hg⟩
  · rw [pcapRead_whole hp bufLen hne hg] at h
    cases h
    exact absurd rfl hne

theorem readLoop_prefix {k n : ℕ} {f : PcapFile} {r s : List Bytes × PcapFile}
    (hr : readLoop start bufLen k f = some r) (hs : readLoop data bufLen n f = some s) :
    r.1 <+: s.1 := by
  induction k generalizing n f r s with
  | zero => cases hr
  | succ k ih =>
    obtain ⟨pkt, g, hg, -⟩ := pcapRead_ends start bufLen f
    by_cases hne : pkt = []
    · rw [readLoop_stop start bufLen (hne ▸ hg)] at hr
      cases hr
      exact List.nil_prefix
    · rw [readLoop_next start bufLen hne hg] at hr
      obtain ⟨r', hr', rfl⟩ := Option.map_eq_some_iff.mp hr
      cases n with
      | zero => cases hs
      | succ n =>
        rw [readLoop_next data bufLen hne (pcapRead_whole hp bufLen hne hg)] at hs
        obtain ⟨s', hs', rfl⟩ := Option.map_eq_some_iff.mp hs
        exact List.cons_prefix_cons.mpr ⟨rfl, ih hr' hs'⟩

end Readers

section Opening

variable {start data : Bytes} (hp : start <+: data)

theorem detectFmt_ok {f g : PcapFile} {isNg : Bool} (h : pcapDetectFmt data f = .ok isNg g) :
    g = { f with pos := 0 } := by
  obtain ⟨b, t, hb, h⟩ := (bind_ok _ _ _ _ _).mp h
  obtain ⟨-, -, rfl⟩ := (readData_iff data 4 f t b).mp hb
  obtain ⟨u, t, hm, h⟩ := (bind_ok _ _ _ _ _).mp h
  cases hm
  split at h
  · cases h
    rfl
  split at h
  · cases h
    rfl
  · cases h

/-- Both headers take twenty-four bytes. -/
theorem pcapOpen_short (h : data.length < 24) : pcapOpen data = none := by
  have hshort : ∀ f : PcapFile, f.pos = 0 → ∀ u g,
      ¬ pcapReadData data 24 f = .ok u g := by
    intro f hpos u g hr
    obtain ⟨hlen, -, -⟩ := (readData_iff data 24 f g u).mp hr
    have hin := slice_within hlen (by decide)
    omega
  unfold pcapOpen
  dsimp only
  split
  · next u g hr =>
    obtain ⟨isNg, t, hdetect, hr⟩ := (bind_ok _ _ _ _ _).mp hr
    obtain ⟨v, t', hm, hr⟩ := (bind_ok _ _ _ _ _).mp hr
    cases hm
    rw [detectFmt_ok hdetect] at hr
    split at hr
    · obtain ⟨b, t, hb, -⟩ := (bind_ok _ _ _ _ _).mp hr
      exact absurd hb (hshort _ rfl b t)
    · obtain ⟨b, t, hb, -⟩ := (bind_ok _ _ _ _ _).mp hr
      exact absurd hb (hshort _ rfl b t)
  · rfl

include hp

theorem pcapOpen_same (h : 24 ≤ start.length) : pcapOpen start = pcapOpen data := by
  have hdetect : ∀ f : PcapFile, f.pos = 0 → pcapDetectFmt start f = pcapDetectFmt data f := by
    intro f hpos
    exact bind_same (readData_same hp (by omega)) _
  have hsetup : ∀ f : PcapFile, f.pos = 0 →
      (do
        let isNg ← pcapDetectFmt start
        modify fun f => { f with isNg := isNg }
        if isNg then pcapReadShb start else pcapReadHdr start : Rd Unit) f =
      (do
        let isNg ← pcapDetectFmt data
        modify fun f => { f with isNg := isNg }
        if isNg then pcapReadShb data else pcapReadHdr data : Rd Unit) f := by
    intro f hpos
    rw [bind_same (hdetect f hpos)]
    cases hr : pcapDetectFmt data f with
    | ok isNg g =>
      rw [bind_of_ok hr, bind_of_ok hr, bind_of_ok (modify_run _ _), bind_of_ok (modify_run _ _),
        detectFmt_ok hr]
      split
      · exact bind_same (readData_same hp (by dsimp only; omega)) _
      · exact bind_same (readData_same hp (by dsimp only; omega)) _
    | exit e g => rw [bind_of_exit hr, bind_of_exit hr]
    | fault d => rw [bind_of_fault hr, bind_of_fault hr]
  unfold pcapOpen
  dsimp only
  rw [hsetup _ rfl]

end Opening

theorem readFile_some {data : Bytes} {f : PcapFile} (bufLen : ℕ) (h : pcapOpen data = some f) :
    ∃ r, readFile data bufLen = some r := by
  obtain ⟨r, hr⟩ := readLoop_ends data bufLen (show data.length-f.pos < data.length+1 by omega)
  exact ⟨r, by rw [readFile, h, Option.bind_some, hr]⟩

/-- What is read from the beginning of a file, whatever it holds, is the beginning of what is
read from all of it: bytes that follow do not change a packet that was read before. -/
theorem read_prefix {start data : Bytes} {bufLen : ℕ} {got : List Bytes} {g : PcapFile}
    (hp : start <+: data) (h : readFile start bufLen = some (got, g)) :
    ∃ all t, readFile data bufLen = some (all, t) ∧ got <+: all := by
  obtain ⟨f, hopen, hloop⟩ := Option.bind_eq_some_iff.mp h
  have hlen : 24 ≤ start.length := by
    by_contra hshort
    rw [pcapOpen_short (by omega)] at hopen
    cases hopen
  rw [pcapOpen_same hp hlen] at hopen
  obtain ⟨s, hs⟩ := readFile_some bufLen hopen
  refine ⟨s.1, s.2, hs, ?_⟩
  rw [readFile, hopen, Option.bind_some] at hs
  exact readLoop_prefix hp bufLen hloop hs

/-- The second packet of a file that was cut off in its block is not read. -/
theorem one_of_two_packets : ∃ all t, readFile (written false true false [(5, [1, 2, 3, 4]),
    (6, [5, 6])]) 8 = some (all, t) ∧ [[1, 2, 3, 4]] <+: all := by
  have hread : (readFile ((written false true false [(5, [1, 2, 3, 4]), (6, [5, 6])]).take 112)
      8).map Prod.fst = some [[1, 2, 3, 4]] := by decide +kernel
  obtain ⟨r, hr, heq⟩ := Option.map_eq_some_iff.mp hread
  have hpair : readFile ((written false true false [(5, [1, 2, 3, 4]), (6, [5, 6])]).take 112)
      8 = some ([[1, 2, 3, 4]], r.2) := by rw [hr, ← heq]
  exact read_prefix (List.take_prefix 112 _) hpair

/-- The bytes of a packet's record or block that follow its data. -/
def trailer (isNg : Bool) (pkt : Bytes) : ℕ := if isNg then calcPadlen pkt.length+4 else 0

def entryBytes (swap isNg : Bool) (p : ℕ × Bytes) : Bytes :=
  if isNg then epbBytes swap p.1 p.2 else recBytes swap p.1 p.2

theorem length_entry (swap isNg : Bool) (p : ℕ × Bytes) : (entryBytes swap isNg p).length =
    (if isNg then 28 else 16)+p.2.length+trailer isNg p.2 := by
  cases isNg with
  | false =>
    change (recBytes swap p.1 p.2).length = _
    rw [recBytes, List.length_append, length_fields]
    rfl
  | true =>
    change (epbBytes swap p.1 p.2).length = _
    rw [epbBytes, List.length_append, List.length_append, List.length_append, length_fields,
      length_fields, List.length_replicate]
    change 28+(p.2.length+(calcPadlen p.2.length+4)) = 28+p.2.length+(calcPadlen p.2.length+4)
    omega

/-- The reader is in front of packets, the next of which it gets exactly when the file holds
its data. -/
structure Facing (swap isNg : Bool) (start : Bytes) (bufLen : ℕ)
    (R : PcapFile → List (ℕ × Bytes) → Prop) : Prop where
  none_left : ∀ {f}, R f [] → ∃ g, pcapRead start bufLen f = .ok [] g
  there : ∀ {f p pkts}, R f (p :: pkts) →
    f.pos+(entryBytes swap isNg p).length ≤ start.length+trailer isNg p.2 →
      ∃ g, pcapRead start bufLen f = .ok p.2 g ∧ R g pkts ∧
        g.pos = f.pos+(entryBytes swap isNg p).length
  missing : ∀ {f p pkts}, R f (p :: pkts) →
    ¬ f.pos+(entryBytes swap isNg p).length ≤ start.length+trailer isNg p.2 →
      ∃ g, pcapRead start bufLen f = .ok [] g

/-- The number of packets that are read: those whose data ends inside the file. -/
def Inside (swap isNg : Bool) (len pos : ℕ) (pkts : List (ℕ × Bytes)) (n : ℕ) : Prop :=
  n ≤ pkts.length ∧ ∀ i (hi : i < pkts.length), i < n ↔
    pos+((pkts.take (i+1)).flatMap (entryBytes swap isNg)).length ≤ len+trailer isNg pkts[i].2

section Cut

variable {swap isNg : Bool} {len pos : ℕ} {p : ℕ × Bytes} {pkts : List (ℕ × Bytes)}

theorem Inside.cons {n : ℕ} (hin : pos+(entryBytes swap isNg p).length ≤ len+trailer isNg p.2)
    (h : Inside swap isNg len (pos+(entryBytes swap isNg p).length) pkts n) :
    Inside swap isNg len pos (p :: pkts) (n+1) := by
  refine ⟨Nat.succ_le_succ h.1, fun i hi => ?_⟩
  cases i with
  | zero => simpa using hin
  | succ i =>
    have hstep := h.2 i (Nat.lt_of_succ_lt_succ hi)
    rw [List.take_succ_cons, List.flatMap_cons, List.length_append, ← Nat.add_assoc,
      List.getElem_cons_succ, ← hstep]
    omega

/-- Behind a packet that was cut off nothing is left. -/
theorem inside_zero (hout : ¬ pos+(entryBytes swap isNg p).length ≤ len+trailer isNg p.2) :
    Inside swap isNg len pos (p :: pkts) 0 := by
  refine ⟨Nat.zero_le _, fun i hi => ?_⟩
  cases i with
  | zero => simpa using hout
  | succ i =>
    have hlt : i < pkts.length := Nat.lt_of_succ_lt_succ hi
    have hlast : (entryBytes swap isNg pkts[i]).length ≤
        ((pkts.take (i+1)).flatMap (entryBytes swap isNg)).length := by
      rw [List.take_succ_eq_append_getElem hlt, List.flatMap_append, List.length_append,
        List.flatMap_singleton]
      omega
    have hlen := length_entry swap isNg pkts[i]
    rw [List.take_succ_cons, List.flatMap_cons, List.length_append, List.getElem_cons_succ]
    omega

/-- The loop gets the packets whose data is inside, one call for each. -/
theorem readLoop_cut {start : Bytes} {bufLen : ℕ} {R : PcapFile → List (ℕ × Bytes) → Prop}
    (hR : Facing swap isNg start bufLen R) {f : PcapFile} (h : R f pkts)
    (hne : ∀ p ∈ pkts, p.2 ≠ []) {k : ℕ} {r : List Bytes × PcapFile}
    (hr : readLoop start bufLen k f = some r) :
    ∃ n, r.1 = (pkts.take n).map Prod.snd ∧ Inside swap isNg start.length f.pos pkts n := by
  induction pkts generalizing f k r with
  | nil =>
    obtain ⟨g, hg⟩ := hR.none_left h
    cases k with
    | zero => cases hr
    | succ k =>
      rw [readLoop_stop start bufLen hg] at hr
      cases hr
      exact ⟨0, rfl, le_rfl, fun i hi => absurd hi (Nat.not_lt_zero i)⟩
  | cons p pkts ih =>
    obtain ⟨hp, hrest⟩ := List.forall_mem_cons.mp hne
    cases k with
    | zero => cases hr
    | succ k =>
      by_cases hin : f.pos+(entryBytes swap isNg p).length ≤ start.length+trailer isNg p.2
      · obtain ⟨g, hg, hnext, hpos⟩ := hR.there h hin
        rw [readLoop_next start bufLen hp hg] at hr
        obtain ⟨r', hr', rfl⟩ := Option.map_eq_some_iff.mp hr
        obtain ⟨n, hn, hinside⟩ := ih hnext hrest hr'
        rw [hpos] at hinside
        refine ⟨n+1, ?_, hinside.cons hin⟩
        rw [List.take_succ_cons, List.map_cons, ← hn]
      · obtain ⟨g, hg⟩ := hR.missing h hin
        rw [readLoop_stop start bufLen hg] at hr
        cases hr
        exact ⟨0, rfl, inside_zero hin⟩

end Cut

section Records

variable {swap : Bool} {start data : Bytes} {f g : PcapFile} {p : ℕ × Bytes}
  {pkts : List (ℕ × Bytes)} {bufLen : ℕ}

theorem readRec_there (hp : start <+: data) (h : AtRecords swap data f (p :: pkts))
    (hfit : p.2.length ≤ bufLen) (hlt : p.2.length < 2^32)
    (hin : f.pos+16+p.2.length ≤ start.length) :
    pcapReadRec start bufLen f = .ok p.2 { f with pos := f.pos+16+p.2.length } := by
  have hword : word start f 8 = p.2.length := by
    rw [word_same hp (by omega), h.inclLen, Nat.mod_eq_of_lt hlt]
  unfold pcapReadRec
  rw [bind_of_ok (pcapReadData_run start (show f.pos+16 ≤ start.length by omega)), u32_bind,
    guard_run, header_word start f (by decide), hword, if_neg (not_lt.mpr hfit),
    pcapReadData_run start hin]
  exact congrArg (Outcome.ok · _) ((slice_extend hp _ _ hin).symm.trans h.data_eq.1)

/-- A packet that is returned ends inside the file. -/
theorem readRec_inside {pkt : Bytes} (h : pcapReadRec start bufLen f = .ok pkt g)
    (hne : pkt ≠ []) : g.pos ≤ start.length := by
  obtain ⟨b, t, hb, h⟩ := (bind_ok _ _ _ _ _).mp h
  rw [u32_bind, guard_ok] at h
  obtain ⟨hlen, hpkt, rfl⟩ := (readData_iff _ _ _ _ _).mp h.2
  refine slice_within hlen ?_
  rw [← hlen, ← hpkt]
  exact List.length_pos_iff.mpr hne

theorem records_facing (hp : start <+: data) (hfits : ∀ p : ℕ × Bytes, p ∈ pkts →
      p.2 ≠ [] ∧ p.2.length ≤ bufLen ∧ p.2.length < 2^32) :
    Facing swap false start bufLen fun f rest => AtRecords swap data f rest ∧ rest <:+ pkts where
  none_left {f} h := by
    obtain ⟨t, ht, -⟩ := records_eof bufLen h.1
    exact pcapRead_none hp bufLen ht
  there {f p rest} h hin := by
    obtain ⟨-, hfit, hlt⟩ := hfits p (h.2.subset (List.mem_cons_self ..))
    have hlen : (entryBytes swap false p).length = 16+p.2.length := length_entry swap false p
    rw [hlen, trailer, if_neg (by decide)] at hin
    refine ⟨_, ?_, ⟨h.1.next, (List.suffix_cons _ _).trans h.2⟩, ?_⟩
    · rw [pcapRead_legacy h.1.legacy h.1.noErr h.1.noEof,
        readRec_there hp h.1 hfit hlt (by omega)]
    · rw [hlen, ← Nat.add_assoc]
  missing {f p rest} h hout := by
    obtain ⟨-, hfit, hlt⟩ := hfits p (h.2.subset (List.mem_cons_self ..))
    have hlen : (entryBytes swap false p).length = 16+p.2.length := length_entry swap false p
    rw [hlen, trailer, if_neg (by decide)] at hout
    rw [pcapRead_legacy h.1.legacy h.1.noErr h.1.noEof]
    cases hr : pcapReadRec start bufLen f with
    | ok pkt g =>
      by_cases hne : pkt = []
      · exact ⟨g, by rw [hne]⟩
      · have hend := readRec_inside hr hne
        have hall := extends_readRec hp bufLen f pkt g hr
        rw [pcapReadRec_run h.1 hfit hlt] at hall
        cases hall
        dsimp only at hend
        omega
    | exit e g => exact ⟨g, rfl⟩
    | fault d => exact ((forward_readRec start bufLen).fault hr).elim

end Records

def EpbBlocks (swap : Bool) (pkts : List (ℕ × Bytes)) (bs : List Block) : Prop :=
  List.Forall₂ (fun p b => ∃ h, b = epbBlock swap p.1 p.2 h) pkts bs

theorem epbBlocks_exist (swap : Bool) {pkts : List (ℕ × Bytes)}
    (h : ∀ p ∈ pkts, totLen 28 p.2 < 2^32) :
    ∃ bs, EpbBlocks swap pkts bs ∧ fileBytes bs = pkts.flatMap (entryBytes swap true) ∧
      InOrder swap bs ∧ ∀ b ∈ bs, b.Sound := by
  induction pkts with
  | nil => exact ⟨[], .nil, rfl, trivial, by simp⟩
  | cons p pkts ih =>
    obtain ⟨hp, hrest⟩ := List.forall_mem_cons.mp h
    obtain ⟨bs, hbs, hbytes, horder, hsound⟩ := ih hrest
    refine ⟨epbBlock swap p.1 p.2 hp :: bs, .cons ⟨hp, rfl⟩ hbs, ?_, ⟨.inr rfl, horder⟩,
      List.forall_mem_cons.mpr ⟨epbBlock_sound swap p.1 p.2 hp, hsound⟩⟩
    rw [fileBytes, List.flatMap_cons, epbBlock_bytes, List.flatMap_cons, ← hbytes]
    rfl

section Blocks

variable {swap : Bool} {start data : Bytes} {f g : PcapFile} {ts : ℕ} {pkt : Bytes}
  {hlt : totLen 28 pkt < 2^32} {b : Block} {bs : List Block} {rest : Bytes} {bufLen : ℕ}

/-- What is left of the file behind a position in it. -/
theorem at_position (h : At data f bs rest) (hpos : f.pos ≤ start.length) :
    At start f [] (start.drop f.pos) where
  ng := h.ng
  shb := h.shb
  noErr := h.noErr
  noEof := h.noEof
  left := ⟨start.take f.pos, by simp [fileBytes], by rw [List.length_take_of_le hpos]⟩
  order := trivial
  sound b hb := by simp at hb

/-- A block that is there as a whole. -/
theorem at_block (hp : start <+: data) (h : At data f (b :: bs) rest)
    (hin : f.pos+b.total ≤ start.length) : ∃ tail, At start f [b] tail := by
  obtain ⟨before, hdata, hpos⟩ := h.left
  have hblock : before ++ b.bytes <+: data := ⟨fileBytes bs ++ rest, by simp [hdata, fileBytes]⟩
  obtain ⟨tail, htail⟩ := List.prefix_of_prefix_length_le hblock hp
    (by rw [List.length_append, length_bytes, ← hpos]; exact hin)
  refine ⟨tail, h.ng, h.shb, h.noErr, h.noEof, ⟨before, ?_, hpos⟩, ⟨h.order.1, trivial⟩, ?_⟩
  · rw [← htail]
    simp [fileBytes]
  · intro c hc
    rw [List.mem_singleton.mp hc]
    exact h.sound b (List.mem_cons_self ..)

theorem epb_round (h : At data f (epbBlock swap ts pkt hlt :: bs) rest) (hidb : f.haveIdb = true)
    (hne : pkt ≠ []) (hfit : pkt.length ≤ bufLen) :
    xpbRound data bufLen f = .ok (some pkt) (past (epbBlock swap ts pkt hlt) f) := by
  have hround := xpbRound_follows bufLen h
  rw [hidb, (epb_yields swap ts hne hfit hlt).effect] at hround
  exact hround

theorem epb_type (h : At data f (epbBlock swap ts pkt hlt :: bs) rest) :
    typeAt data f = pcapEpbType := by
  rw [typeAt_block h]
  change toInt pcapEpbType = _
  decide

/-- What a round returns from an enhanced block lies in the file behind its header. -/
theorem epb_round_inside (hin : f.pos+4 ≤ start.length) (hty : typeAt start f = pcapEpbType)
    (hne : pkt ≠ []) (h : xpbRound start bufLen f = .ok (some pkt) g) :
    f.pos+28+pkt.length ≤ start.length := by
  rw [xpbRound_epb start bufLen hin hty] at h
  obtain ⟨p, t, hr, h⟩ := (bind_ok _ _ _ _ _).mp h
  cases h
  obtain ⟨-, -, -, -, hlen, hpkt, -⟩ := (pcapReadEpb_ok start bufLen f g pkt).mp hr
  rw [← hpkt] at hlen
  rw [hlen]
  exact slice_within (by rw [← hpkt, hlen]) (hlen ▸ List.length_pos_iff.mpr hne)

/-- The reader needs the block only up to the end of the packet. -/
theorem epb_round_there (hp : start <+: data) (hin : f.pos+28+pkt.length ≤ start.length)
    (hty : typeAt data f = pcapEpbType) (h : xpbRound data bufLen f = .ok (some pkt) g) :
    xpbRound start bufLen f = .ok (some pkt) g := by
  have hle := hp.length_le
  rw [xpbRound_epb data bufLen (by omega) hty] at h
  obtain ⟨p, t, hr, h⟩ := (bind_ok _ _ _ _ _).mp h
  cases h
  obtain ⟨hidb, -, htot, hfit, hlen, hpkt, hg⟩ := (pcapReadEpb_ok data bufLen f g pkt).mp hr
  rw [← hpkt] at hlen
  have hread : pcapReadEpb start bufLen f = .ok pkt g := by
    rw [pcapReadEpb_ok, word_same hp (by omega), word_same hp (by omega), ← hlen]
    rw [← hlen] at hfit hpkt hg
    refine ⟨hidb, length_slice _ _ _ (by omega), htot, hfit, length_slice _ _ _ hin, ?_, hg⟩
    rw [← slice_extend hp _ _ hin]
    exact hpkt
  rw [xpbRound_epb start bufLen (by omega) (by rw [typeAt_same hp (by omega), hty]),
    bind_of_ok hread]
  rfl

theorem epb_missing (hp : start <+: data)
    (h : At data f (epbBlock swap ts pkt hlt :: bs) rest) (hidb : f.haveIdb = true)
    (hne : pkt ≠ []) (hfit : pkt.length ≤ bufLen)
    (hout : ¬ f.pos+28+pkt.length ≤ start.length) :
    ∃ g, pcapRead start bufLen f = .ok [] g := by
  obtain ⟨got, g, hg, hmove⟩ := pcapRead_ends start bufLen f
  by_cases hnil : got = []
  · exact ⟨g, hnil ▸ hg⟩
  have hhere := at_position h (hmove hnil).2.le
  cases hr : xpbRound start bufLen f with
  | ok r t =>
    have hsame := extends_round hp bufLen f r t hr
    rw [epb_round h hidb hne hfit] at hsame
    cases hsame
    have henter : f.pos+4 ≤ start.length := by
      by_contra hshort
      obtain ⟨u, hu, -⟩ := xpbRound_stop start bufLen (mt And.left hshort)
      rw [hu] at hr
      cases hr
    have hty : typeAt start f = pcapEpbType := by rw [typeAt_same hp henter, epb_type h]
    exact absurd (epb_round_inside henter hty hne hr) hout
  | exit e t => exact ⟨t, pcapRead_exit hhere hr⟩
  | fault d => exact absurd hr (xpbRound_ne_fault start bufLen f d)

theorem blocks_facing (hp : start <+: data) {pkts : List (ℕ × Bytes)}
    (hfits : ∀ p : ℕ × Bytes, p ∈ pkts →
      p.2 ≠ [] ∧ p.2.length ≤ bufLen ∧ totLen 28 p.2 < 2^32) :
    Facing swap true start bufLen fun f rest => rest <:+ pkts ∧
      ∃ bs, EpbBlocks swap rest bs ∧ At data f bs [] ∧ f.haveIdb = true where
  none_left {f} h := by
    obtain ⟨-, bs, hbs, hat, -⟩ := h
    cases hbs
    obtain ⟨t, ht, -⟩ := pcapRead_eof bufLen hat
    exact pcapRead_none hp bufLen ht
  there {f p rest} h hin := by
    obtain ⟨hsuffix, bs, hbs, hat, hidb⟩ := h
    obtain ⟨hne, hfit, -⟩ := hfits p (hsuffix.subset (List.mem_cons_self ..))
    cases hbs with
    | cons hb hrest =>
      obtain ⟨hlt, rfl⟩ := hb
      rw [length_entry, if_pos rfl] at hin
      have hround := epb_round_there hp (by omega) (epb_type hat) (epb_round hat hidb hne hfit)
      refine ⟨_, pcapRead_packet (at_position hat (by omega)) hround,
        ⟨(List.suffix_cons _ _).trans hsuffix, _, hrest, hat.next, by simp [past, hidb]⟩, ?_⟩
      change f.pos+(epbBlock swap p.1 p.2 hlt).total = _
      rw [← length_bytes, epbBlock_bytes]
      rfl
  missing {f p rest} h hout := by
    obtain ⟨hsuffix, bs, hbs, hat, hidb⟩ := h
    obtain ⟨hne, hfit, -⟩ := hfits p (hsuffix.subset (List.mem_cons_self ..))
    cases hbs with
    | cons hb hrest =>
      obtain ⟨hlt, rfl⟩ := hb
      rw [length_entry, if_pos rfl] at hout
      exact epb_missing hp hat hidb hne hfit (by omega)

/-- No packet is found before the end of a skipped block that the file does not reach. -/
theorem pcapRead_skipped (hp : start <+: data) (h : At data f (b :: bs) rest)
    (hround : xpbRound data bufLen f = .ok none (past b f))
    (hshort : start.length ≤ f.pos+b.total) : ∃ g, pcapRead start bufLen f = .ok [] g := by
  obtain ⟨got, g, hg, -⟩ := pcapRead_ends start bufLen f
  by_cases hnil : got = []
  · exact ⟨g, hnil ▸ hg⟩
  obtain ⟨c, hskip, hc⟩ := pcapRead_from start bufLen h.ng (List.length_pos_iff.mpr hnil) hg
  cases hskip with
  | here =>
    have hsame := extends_round hp bufLen _ _ _ hc
    rw [hround] at hsame
    cases hsame
  | next hfirst hskip =>
    have hsame := extends_round hp bufLen _ _ _ hfirst
    rw [hround] at hsame
    cases hsame
    have hbeyond : (past b f).pos < start.length := by
      cases hskip with
      | here => exact (xpbRound_ok start bufLen hc).2
      | next hsecond _ => exact (xpbRound_ok start bufLen hsecond).2
    exact absurd hbeyond (not_lt.mpr hshort)

end Blocks

section Files

variable {swap isNg : Bool} {pkts : List (ℕ × Bytes)} {bufLen : ℕ} {start : Bytes}

def firstEntry (isNg : Bool) : ℕ := if isNg then 48 else 24

theorem length_written (hne : pkts ≠ []) : (written swap isNg false pkts).length =
    firstEntry isNg+(pkts.flatMap (entryBytes swap isNg)).length := by
  cases isNg with
  | false =>
    rw [written_legacy, List.length_append, length_hdrBytes]
    rfl
  | true =>
    rw [written_ng, if_neg hne, List.length_append, List.length_append, shbBytes, idbBytes,
      List.length_append, List.length_append, length_fields, length_fields, length_fields,
      length_fields]
    change 28+(20+_) = 48+_
    rw [← Nat.add_assoc]
    rfl

/-- The places of the packets, told by the files that end with them. -/
theorem Inside.told {n : ℕ} (h : Inside swap isNg start.length (firstEntry isNg) pkts n) :
    n ≤ pkts.length ∧ ∀ i (hi : i < pkts.length), i < n ↔
      (written swap isNg false (pkts.take (i+1))).length ≤
        start.length+trailer isNg pkts[i].2 := by
  refine ⟨h.1, fun i hi => ?_⟩
  have hne : pkts.take (i+1) ≠ [] := by
    apply List.ne_nil_of_length_pos
    rw [List.length_take]
    omega
  rw [h.2 i hi, length_written hne]

theorem cut_records (hp : start <+: written swap false false pkts)
    (hfits : ∀ p ∈ pkts, p.2 ≠ [] ∧ p.2.length ≤ bufLen ∧ p.2.length < 2^32)
    (hlen : 24 ≤ start.length) : ∃ n g,
      readFile start bufLen = some ((pkts.take n).map Prod.snd, g) ∧
      Inside swap false start.length (firstEntry false) pkts n := by
  rw [written_legacy] at hp
  have hopen := pcapOpen_same hp hlen
  rw [pcapOpen_legacy] at hopen
  obtain ⟨r, hr⟩ := readFile_some bufLen hopen
  have hloop := hr
  rw [readFile, hopen, Option.bind_some] at hloop
  obtain ⟨n, hn, hinside⟩ := readLoop_cut (records_facing hp hfits)
    ⟨opened_records swap pkts, List.suffix_rfl⟩ (fun p hmem => (hfits p hmem).1) hloop
  exact ⟨n, r.2, by rw [hr, ← hn], hinside⟩

theorem idbBlock_total (swap : Bool) : (idbBlock swap).total = 20 := by
  rw [Block.total, idbBlock, length_fields]
  decide

/-- The reader in front of the blocks of a whole file. -/
theorem ng_opened (hfits : ∀ p ∈ pkts, totLen 28 p.2 < 2^32) (hne : pkts ≠ []) :
    ∃ f bs, pcapOpen (written swap true false pkts) = some f ∧ EpbBlocks swap pkts bs ∧
      At (written swap true false pkts) f (idbBlock swap :: bs) [] ∧ f.haveIdb = false ∧
      f.pos = 28 := by
  obtain ⟨bs, hbs, hbytes, horder, hsound⟩ := epbBlocks_exist swap hfits
  have hwf : WellFormed (shbBlock swap) (idbBlock swap :: bs) :=
    ⟨rfl, shbBlock_sound swap, ⟨.inr rfl, horder⟩,
      List.forall_mem_cons.mpr ⟨idbBlock_sound swap, hsound⟩⟩
  have hfile : fileBytes (shbBlock swap :: idbBlock swap :: bs) ++ [] =
      written swap true false pkts := by
    rw [written_ng, if_neg hne, ← shbBlock_bytes, ← idbBlock_bytes, List.append_nil]
    change (shbBlock swap).bytes ++ ((idbBlock swap).bytes ++ fileBytes bs) = _
    rw [hbytes]
    rfl
  obtain ⟨f, hopen, hat, hidb, -⟩ := pcapOpen_run hwf []
  have hpos : f.pos = 28 := by
    obtain ⟨before, hdata, hpos⟩ := hat.left
    have hlen := congrArg List.length hdata
    have hshb : (shbBlock swap).bytes.length = 28 := by
      rw [length_bytes, Block.total, shbBlock, length_fields]
      decide
    rw [fileBytes, List.flatMap_cons] at hlen
    simp only [List.length_append, hshb, fileBytes, List.length_nil] at hlen
    omega
  rw [hfile] at hopen hat
  exact ⟨f, bs, hopen, hbs, hat, hidb, hpos⟩

/-- A file without packets. -/
theorem cut_header (hp : start <+: written swap true false []) (hlen : 24 ≤ start.length) :
    ∃ g, readFile start bufLen = some ([], g) := by
  have hopen := pcapOpen_same hp hlen
  have hnone : ∀ p ∈ ([] : List (ℕ × Bytes)),
      p.2 ≠ [] ∧ p.2.length ≤ bufLen ∧ fieldLen true p.2 < 2^32 := by simp
  obtain ⟨f, g, hwhole, -, hread, -⟩ := written_read swap true hnone
  rw [hwhole] at hopen
  obtain ⟨r, hr⟩ := readFile_some bufLen hopen
  obtain ⟨all, t, hall, hprefix⟩ := read_prefix hp hr
  rw [hread] at hall
  cases hall
  refine ⟨r.2, ?_⟩
  rw [hr]
  exact congrArg some (Prod.ext (List.prefix_nil.mp hprefix) rfl)

theorem cut_blocks (hp : start <+: written swap true false pkts)
    (hfits : ∀ p ∈ pkts, p.2 ≠ [] ∧ p.2.length ≤ bufLen ∧ totLen 28 p.2 < 2^32)
    (hlen : 24 ≤ start.length) : ∃ n g,
      readFile start bufLen = some ((pkts.take n).map Prod.snd, g) ∧
      Inside swap true start.length (firstEntry true) pkts n := by
  have hopen := pcapOpen_same hp hlen
  by_cases hnil : pkts = []
  · subst hnil
    obtain ⟨g, hg⟩ := cut_header hp hlen
    exact ⟨0, g, hg, le_rfl, fun i hi => absurd hi (Nat.not_lt_zero i)⟩
  obtain ⟨f, bs, hwhole, hbs, hat, hidb, hpos⟩ :=
    ng_opened (fun p hmem => (hfits p hmem).2.2) hnil
  rw [hwhole] at hopen
  obtain ⟨r, hr⟩ := readFile_some bufLen hopen
  have hloop := hr
  rw [readFile, hopen, Option.bind_some] at hloop
  have hround : xpbRound (written swap true false pkts) bufLen f =
      .ok none (past (idbBlock swap) f) := xpbRound_follows bufLen hat
  by_cases hshort : start.length ≤ 48
  · obtain ⟨g, hg⟩ := pcapRead_skipped hp hat hround (by rw [hpos, idbBlock_total]; exact hshort)
    rw [readLoop_stop start bufLen hg] at hloop
    cases hloop
    refine ⟨0, g, hr, ?_⟩
    obtain ⟨p, rest, rfl⟩ := List.exists_cons_of_ne_nil hnil
    apply inside_zero
    rw [length_entry, firstEntry, if_pos rfl, if_pos rfl]
    omega
  · obtain ⟨tail, hthere⟩ := at_block hp hat (by rw [hpos, idbBlock_total]; omega)
    have hskip := pcapRead_skip hthere (xpbRound_follows bufLen hthere)
    rw [readLoop_same start bufLen hskip] at hloop
    obtain ⟨n, hn, hinside⟩ := readLoop_cut (blocks_facing hp hfits)
      ⟨List.suffix_rfl, bs, hbs, hat.next, by simp [past, idbBlock]⟩
      (fun p hmem => (hfits p hmem).1) hloop
    have hfirst : (past (idbBlock swap) f).pos = firstEntry true := by
      change f.pos+(idbBlock swap).total = 48
      rw [hpos, idbBlock_total]
    rw [hfirst] at hinside
    exact ⟨n, r.2, by rw [hr, ← hn], hinside⟩

/-- What is left of a file that the writer, which uses enhanced packet blocks, was stopped in.
The packets are not empty, fit the buffer of the reader, and the length field of each is below
`2^32`. Without its first header the file is not opened. With it the reader gets packets in the
order in which they were written, and a packet is among them exactly if the file holds it to the
end of its data. -/
theorem cut_capture (isNg : Bool) {pkts : List (ℕ × Bytes)} {bufLen : ℕ} {start : Bytes}
    (hp : start <+: written swap isNg false pkts)
    (hfits : ∀ p ∈ pkts, p.2 ≠ [] ∧ p.2.length ≤ bufLen ∧ fieldLen isNg p.2 < 2^32) :
    (start.length < 24 → pcapOpen start = none) ∧
    (24 ≤ start.length → ∃ n g,
      readFile start bufLen = some ((pkts.take n).map Prod.snd, g) ∧ n ≤ pkts.length ∧
      ∀ i (hi : i < pkts.length), i < n ↔
        (written swap isNg false (pkts.take (i+1))).length ≤
          start.length+trailer isNg pkts[i].2) := by
  refine ⟨pcapOpen_short, fun hlen => ?_⟩
  cases isNg with
  | false =>
    obtain ⟨n, g, hread, hinside⟩ := cut_records hp hfits hlen
    exact ⟨n, g, hread, hinside.told⟩
  | true =>
    obtain ⟨n, g, hread, hinside⟩ := cut_blocks hp hfits hlen
    exact ⟨n, g, hread, hinside.told⟩

/-- Two packets, the second of which lost its last byte. -/
theorem second_packet_cut :
    (((written true true false [(5, [1, 2, 3]), (6, [4, 5])]).take 113).length < 24 →
      pcapOpen ((written true true false [(5, [1, 2, 3]), (6, [4, 5])]).take 113) = none) ∧
    (24 ≤ ((written true true false [(5, [1, 2, 3]), (6, [4, 5])]).take 113).length → ∃ n g,
      readFile ((written true true false [(5, [1, 2, 3]), (6, [4, 5])]).take 113) 8 =
        some (([((5 : ℕ), ([1, 2, 3] : Bytes)), (6, [4, 5])].take n).map Prod.snd, g) ∧ n ≤ 2 ∧
      ∀ i (hi : i < [((5 : ℕ), ([1, 2, 3] : Bytes)), (6, [4, 5])].length), i < n ↔
        (written true true false ([(5, [1, 2, 3]), (6, [4, 5])].take (i+1))).length ≤
          ((written true true false [(5, [1, 2, 3]), (6, [4, 5])]).take 113).length+
            trailer true [((5 : ℕ), ([1, 2, 3] : Bytes)), (6, [4, 5])][i].2) :=
  cut_capture true (List.take_prefix 113 _) (by decide)

end Files

end DnsPkt.InterruptedCapture
