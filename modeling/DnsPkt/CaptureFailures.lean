import DnsPkt.CaptureFile

/-!
# Writes that fail

A packet is written in pieces, and each call of `fwrite` may take only a part
of its bytes. What the calls take, and whether they mark an error, is a plan
that is given to the writer. The failure of one piece is not passed on.
-/

set_option autoImplicit false

namespace DnsPkt.CaptureFailures
open DnsPkt.CheckedRun DnsPkt.CheckedRun.Run DnsPkt.Octets DnsPkt.ByteOrder DnsPkt.CaptureFile

/-- The bytes that a call of `fwrite` takes at most, and the error flag behind it. -/
structure Fwrite where
  taken : ℕ
  error : Bool

/-- The fields of `struct pcap_file` that writing depends on, and the number of calls made. -/
structure PcapSink where
  out : Bytes
  isNg : Bool
  useSpb : Bool
  haveIdb : Bool
  sysErr : Bool
  recCnt : ℕ
  pktCnt : ℕ
  calls : ℕ

abbrev Wr := Run PcapSink ℤ Empty

section Writer

variable (plan : ℕ → Fwrite)

def pcapWriteData (b : Bytes) : Wr Unit := fun f =>
  let nwrite := min (plan f.calls).taken b.length
  let g := { f with out := f.out ++ b.take nwrite, calls := f.calls+1 }
  if nwrite ≠ b.length then .exit pcapFail { g with sysErr := g.sysErr || (plan f.calls).error }
  else .ok () g

def pcapWriteBlock (b : Bytes) : Wr Unit := do
  pcapWriteData plan b
  modify fun f => { f with recCnt := f.recCnt+1 }

def orZero (x : Wr Unit) : Wr Unit := fun f =>
  match x f with
  | .exit _ g => .exit 0 g
  | o => o

def pcapWriteRec (ts : ℕ) (pkt : Bytes) : Wr Unit := do
  pcapWriteBlock plan (fields false
    [(4, ts/1000000), (4, ts % 1000000), (4, pkt.length), (4, pkt.length)])
  pcapWriteData plan pkt

def pcapWriteIdb : Wr Unit := do
  pcapWriteBlock plan (fields false
    [(4, pcapIdbType), (4, 20), (2, linktypeEthernet), (2, 0), (4, pcapSnaplen)])
  pcapWriteData plan (fields false [(4, 20)])
  modify fun f => { f with haveIdb := true }

def writePayload (pkt : Bytes) (totLen : ℕ) : Wr Unit := do
  orZero (pcapWriteData plan pkt)
  when (calcPadlen pkt.length ≠ 0) (pcapWriteData plan (List.replicate (calcPadlen pkt.length) 0))
  pcapWriteData plan (fields false [(4, totLen)])

def pcapWriteSpb (pkt : Bytes) : Wr Unit := do
  pcapWriteBlock plan (fields false [(4, pcapSpbType), (4, totLen 12 pkt), (4, pkt.length)])
  writePayload plan pkt (totLen 12 pkt)

def pcapWriteEpb (ts : ℕ) (pkt : Bytes) : Wr Unit := do
  pcapWriteBlock plan (fields false [(4, pcapEpbType), (4, totLen 28 pkt), (4, 0), (4, ts/2^32),
    (4, ts), (4, pkt.length), (4, pkt.length)])
  writePayload plan pkt (totLen 28 pkt)

def pcapWriteXpb (ts : ℕ) (pkt : Bytes) : Wr Unit := do
  let f ← get
  when (¬ f.haveIdb) (pcapWriteIdb plan)
  if f.useSpb then pcapWriteSpb plan pkt else pcapWriteEpb plan ts pkt

def writePkt (ts : ℕ) (pkt : Bytes) : Wr Unit := fun f =>
  if f.isNg then pcapWriteXpb plan ts pkt f else pcapWriteRec plan ts pkt f

def counted (f : PcapSink) : PcapSink := { f with pktCnt := f.pktCnt+1 }

def pcapWrite (ts : ℕ) (pkt : Bytes) (f : PcapSink) : ℤ × PcapSink :=
  if f.sysErr then (-1, f)
  else match writePkt plan ts pkt f with
    | .ok _ g => (0, counted g)
    | .exit rc g => if rc ≠ 0 then (rc, g) else (0, counted g)

end Writer

/-- The bytes are written; or they are cut off and the function says so, or it does not, which
happens in the case `p`. -/
inductive Attempt (p : Prop) (b : Bytes) (f : PcapSink) : Outcome PcapSink ℤ Empty Unit → Prop where
  | done (g : PcapSink) (hp : ¬ p) (hout : g.out = f.out ++ b) (hcnt : g.pktCnt = f.pktCnt) :
      Attempt p b f (.ok () g)
  | failed (rc : ℤ) (g : PcapSink) (c : Bytes) (hp : ¬ p) (hrc : rc ≠ 0) (hc : c.length < b.length)
      (hout : g.out = f.out ++ c) (hcnt : g.pktCnt = f.pktCnt) : Attempt p b f (.exit rc g)
  | hidden (g : PcapSink) (c : Bytes) (hp : p) (hc : c.length < b.length)
      (hout : g.out = f.out ++ c) (hcnt : g.pktCnt = f.pktCnt) : Attempt p b f (.exit 0 g)

theorem Attempt.congr {p q : Prop} {b : Bytes} {f : PcapSink}
    {o : Outcome PcapSink ℤ Empty Unit} (h : Attempt p b f o) (hpq : p ↔ q) : Attempt q b f o := by
  rwa [← propext hpq]

/-- A function that reports its failures, and another one behind it. -/
theorem Attempt.seq {q : PcapSink → Prop} {b c : Bytes} {f : PcapSink} {x y : Wr Unit}
    (hx : Attempt False b f (x f)) (hy : ∀ g, x f = .ok () g → Attempt (q g) c g (y g)) :
    Attempt (∃ g, x f = .ok () g ∧ q g) (b ++ c) f ((x >>= fun _ => y) f) := by
  cases hrun : x f with
  | fault d => exact d.elim
  | exit rc g =>
    rw [bind_of_exit hrun]
    rw [hrun] at hx
    have hnone : ¬ ∃ g', (.exit rc g : Outcome PcapSink ℤ Empty Unit) = .ok () g' ∧ q g' := by
      rintro ⟨_, h, -⟩
      cases h
    cases hx with
    | failed _ _ d _ hrc hd hout hcnt =>
      exact .failed rc g d hnone hrc (by rw [List.length_append]; omega) hout hcnt
    | hidden _ _ hp => exact hp.elim
  | ok u g =>
    rw [bind_of_ok hrun]
    rw [hrun] at hx
    have hiff : (∃ g', Outcome.ok u g = (.ok () g' : Outcome PcapSink ℤ Empty Unit) ∧ q g') ↔
        q g := by
      constructor
      · rintro ⟨_, h, hq⟩
        cases h
        exact hq
      · exact fun hq => ⟨g, rfl, hq⟩
    have hrest := hy g hrun
    cases hx with
    | done _ _ hout hcnt =>
      have hjoin (d : Bytes) : g.out ++ d = f.out ++ (b ++ d) := by rw [hout, List.append_assoc]
      refine Attempt.congr ?_ hiff.symm
      cases hr : y g with
      | fault d => exact d.elim
      | ok v t =>
        rw [hr] at hrest
        cases hrest with
        | done _ hp hout' hcnt' =>
          exact .done t hp (hout'.trans (hjoin c)) (hcnt'.trans hcnt)
      | exit rc t =>
        rw [hr] at hrest
        cases hrest with
        | failed _ _ d hp hrc hd hout' hcnt' =>
          exact .failed rc t (b ++ d) hp hrc (by rw [List.length_append, List.length_append]; omega)
            (hout'.trans (hjoin d)) (hcnt'.trans hcnt)
        | hidden _ d hp hd hout' hcnt' =>
          exact .hidden t (b ++ d) hp (by rw [List.length_append, List.length_append]; omega)
            (hout'.trans (hjoin d)) (hcnt'.trans hcnt)

section Pieces

variable {plan : ℕ → Fwrite} {f : PcapSink} {pkt : Bytes} {ts : ℕ}

variable (plan) in
def Full (i len : ℕ) : Prop := len ≤ (plan i).taken

theorem data_full {b : Bytes} (h : Full plan f.calls b.length) : pcapWriteData plan b f =
    .ok () { f with out := f.out ++ b, calls := f.calls+1 } := by
  have hall : min (plan f.calls).taken b.length = b.length := Nat.min_eq_right h
  simp only [pcapWriteData, hall, ne_eq, not_true_eq_false, ↓reduceIte, List.take_length]

theorem data_short {b : Bytes} (h : ¬ Full plan f.calls b.length) : ∃ g c,
    pcapWriteData plan b f = .exit pcapFail g ∧ c.length < b.length ∧ g.out = f.out ++ c ∧
      g.pktCnt = f.pktCnt := by
  have hlt : (plan f.calls).taken < b.length := not_le.mp h
  have hmin : min (plan f.calls).taken b.length = (plan f.calls).taken := by omega
  have hne : (plan f.calls).taken ≠ b.length := by omega
  have hrun : pcapWriteData plan b f = .exit pcapFail { f with
      out := f.out ++ b.take (plan f.calls).taken
      calls := f.calls+1
      sysErr := f.sysErr || (plan f.calls).error } := by
    simp only [pcapWriteData, hmin, ne_eq, hne, not_false_eq_true, ↓reduceIte]
  refine ⟨_, _, hrun, ?_, rfl, rfl⟩
  rw [List.length_take]
  omega

theorem attempt_data (b : Bytes) : Attempt False b f (pcapWriteData plan b f) := by
  by_cases h : Full plan f.calls b.length
  · rw [data_full h]
    exact .done _ not_false rfl rfl
  · obtain ⟨g, c, hrun, hc, hout, hcnt⟩ := data_short h
    rw [hrun]
    exact .failed _ _ c not_false (by decide) hc hout hcnt

theorem attempt_modify {x : Wr Unit} {b : Bytes} {h : PcapSink → PcapSink}
    (hx : Attempt False b f (x f)) (hout : ∀ g, (h g).out = g.out)
    (hcnt : ∀ g, (h g).pktCnt = g.pktCnt) :
    Attempt False b f ((x >>= fun _ => modify h) f) := by
  have hseq := hx.seq (y := modify h) (q := fun _ => False) (c := []) fun g _ =>
    .done (h g) not_false (by rw [hout, List.append_nil]) (hcnt g)
  rw [List.append_nil] at hseq
  exact hseq.congr (by simp)

theorem attempt_block (b : Bytes) : Attempt False b f (pcapWriteBlock plan b f) :=
  attempt_modify (attempt_data b) (fun _ => rfl) fun _ => rfl

/-- A block header is written in one call. -/
theorem block_ok {b : Bytes} {q : ℕ → Prop} :
    (∃ g, pcapWriteBlock plan b f = .ok () g ∧ q g.calls) ↔
      Full plan f.calls b.length ∧ q (f.calls+1) := by
  by_cases h : Full plan f.calls b.length
  · rw [pcapWriteBlock, bind_of_ok (data_full h)]
    constructor
    · rintro ⟨g, hg, hqg⟩
      cases hg
      exact ⟨h, hqg⟩
    · rintro ⟨-, hqf⟩
      exact ⟨_, rfl, hqf⟩
  · obtain ⟨g, c, hrun, -⟩ := data_short h
    rw [pcapWriteBlock, bind_of_exit hrun]
    constructor
    · rintro ⟨g, hg, -⟩
      cases hg
    · exact fun hf => absurd hf.1 h

/-- Where the packet data is cut off the function returns zero. -/
theorem attempt_payload (totLen : ℕ) : Attempt (¬ Full plan f.calls pkt.length)
    (pkt ++ (List.replicate (calcPadlen pkt.length) 0 ++ fields false [(4, totLen)])) f
      (writePayload plan pkt totLen f) := by
  by_cases h : Full plan f.calls pkt.length
  · have hdata : orZero (pcapWriteData plan pkt) f =
        .ok () { f with out := f.out ++ pkt, calls := f.calls+1 } := by
      rw [orZero, data_full h]
    have hx : Attempt False pkt f (orZero (pcapWriteData plan pkt) f) := by
      rw [hdata]
      exact .done _ not_false rfl rfl
    have hpad (g : PcapSink) : Attempt False (List.replicate (calcPadlen pkt.length) 0) g
        (when (calcPadlen pkt.length ≠ 0)
          (pcapWriteData plan (List.replicate (calcPadlen pkt.length) 0)) g) := by
      by_cases h0 : calcPadlen pkt.length = 0
      · rw [when_neg (by simpa using h0), h0]
        exact .done g not_false (by simp) rfl
      · rw [when_pos h0]
        exact attempt_data _
    have htail (g : PcapSink) := (hpad g).seq (y := pcapWriteData plan (fields false [(4, totLen)]))
      (q := fun _ => False) fun t _ => attempt_data _
    exact (hx.seq fun g _ => htail g).congr (by simp [h])
  · obtain ⟨g, c, hrun, hc, hout, hcnt⟩ := data_short h
    have hdata : orZero (pcapWriteData plan pkt) f = .exit 0 g := by rw [orZero, hrun]
    rw [writePayload, bind_of_exit hdata]
    refine .hidden g c h ?_ hout hcnt
    rw [List.length_append]
    omega

/-- A packet block, with the header in one call and the packet data in the next. -/
theorem attempt_packet (hdr : Bytes) (totLen : ℕ) :
    Attempt (Full plan f.calls hdr.length ∧ ¬ Full plan (f.calls+1) pkt.length)
      (hdr ++ (pkt ++ (List.replicate (calcPadlen pkt.length) 0 ++ fields false [(4, totLen)]))) f
      ((pcapWriteBlock plan hdr >>= fun _ => writePayload plan pkt totLen) f) := by
  have hhdr : Attempt False hdr f (pcapWriteBlock plan hdr f) := attempt_block hdr
  have hrest (g : PcapSink) : Attempt (¬ Full plan g.calls pkt.length) _ g
    (writePayload plan pkt totLen g) := attempt_payload totLen
  exact (hhdr.seq fun g _ => hrest g).congr (block_ok (q := fun n => ¬ Full plan n pkt.length))

def hdrLen (useSpb : Bool) : ℕ := if useSpb then 12 else 28

def packetBytes (useSpb : Bool) (ts : ℕ) (pkt : Bytes) : Bytes :=
  if useSpb then spbBytes false pkt else epbBytes false ts pkt

theorem attempt_xpb (useSpb : Bool) :
    Attempt (Full plan f.calls (hdrLen useSpb) ∧ ¬ Full plan (f.calls+1) pkt.length)
      (packetBytes useSpb ts pkt) f
      ((if useSpb then pcapWriteSpb plan pkt else pcapWriteEpb plan ts pkt) f) := by
  cases useSpb with
  | true =>
    exact attempt_packet (fields false [(4, pcapSpbType), (4, totLen 12 pkt), (4, pkt.length)])
      (totLen 12 pkt)
  | false =>
    exact attempt_packet (fields false [(4, pcapEpbType), (4, totLen 28 pkt), (4, 0), (4, ts/2^32),
      (4, ts), (4, pkt.length), (4, pkt.length)]) (totLen 28 pkt)

theorem attempt_idb : Attempt False (idbBytes false) f (pcapWriteIdb plan f) := by
  refine ((attempt_block _).seq (q := fun _ => False) fun g _ => ?_).congr (by simp)
  exact attempt_modify (attempt_data _) (fun _ => rfl) fun _ => rfl

/-- The interface description is written in two calls. -/
theorem idb_ok {q : ℕ → Prop} : (∃ g, pcapWriteIdb plan f = .ok () g ∧ q g.calls) ↔
    Full plan f.calls 16 ∧ Full plan (f.calls+1) 4 ∧ q (f.calls+2) := by
  have hbind : (∃ g, pcapWriteIdb plan f = .ok () g ∧ q g.calls) ↔
      ∃ t, pcapWriteBlock plan (fields false
        [(4, pcapIdbType), (4, 20), (2, linktypeEthernet), (2, 0), (4, pcapSnaplen)]) f = .ok () t ∧
          (Full plan t.calls 4 ∧ q (t.calls+1)) := by
    constructor
    · rintro ⟨g, hg, hqg⟩
      obtain ⟨u, t, ht, hg⟩ := (bind_ok _ _ _ _ _).mp hg
      refine ⟨t, ht, ?_⟩
      by_cases h : Full plan t.calls 4
      · rw [bind_of_ok (data_full (b := fields false [(4, 20)]) h)] at hg
        cases hg
        exact ⟨h, hqg⟩
      · obtain ⟨g', c, hrun, -⟩ := data_short (b := fields false [(4, 20)]) h
        rw [bind_of_exit hrun] at hg
        cases hg
    · rintro ⟨t, ht, h, hqt⟩
      exact ⟨_, (bind_ok _ _ _ _ _).mpr
        ⟨(), t, ht, bind_of_ok (data_full (b := fields false [(4, 20)]) h) _⟩, hqt⟩
  rw [hbind]
  exact block_ok (q := fun n => Full plan n 4 ∧ q (n+1))

end Pieces

def PcapSink.whole (f : PcapSink) : PcapOut := ⟨f.out, f.isNg, f.useSpb, f.haveIdb⟩

def Complete (ts : ℕ) (pkt : Bytes) (f g : PcapSink) : Prop :=
  g.out = (CaptureFile.pcapWrite false f.whole ts pkt).out

/-- The packet is counted when it was written as a whole, and no other success is reported. -/
def Reports (plan : ℕ → Fwrite) (ts : ℕ) (pkt : Bytes) (f : PcapSink) : Prop :=
  let r := pcapWrite plan ts pkt f
  (r.1 = 0 → Complete ts pkt f r.2) ∧ (r.2.pktCnt = f.pktCnt+1 ↔ Complete ts pkt f r.2) ∧
    (r.2.pktCnt = f.pktCnt+1 ∨ r.2.pktCnt = f.pktCnt)

def hdrCall (f : PcapSink) : ℕ := if f.haveIdb then f.calls else f.calls+2

/-- A packet block comes to its packet data, and these are cut off. -/
def DataCut (plan : ℕ → Fwrite) (pkt : Bytes) (f : PcapSink) : Prop :=
  f.isNg = true ∧ f.sysErr = false ∧
    (f.haveIdb = false → Full plan f.calls 16 ∧ Full plan (f.calls+1) 4) ∧
      Full plan (hdrCall f) (hdrLen f.useSpb) ∧ ¬ Full plan (hdrCall f+1) pkt.length

def neededBytes (ts : ℕ) (pkt : Bytes) (f : PcapSink) : Bytes :=
  if f.isNg then (if f.haveIdb then [] else idbBytes false) ++ packetBytes f.useSpb ts pkt
  else recBytes false ts pkt

theorem whole_out (ts : ℕ) (pkt : Bytes) (f : PcapSink) :
    (CaptureFile.pcapWrite false f.whole ts pkt).out = f.out ++ neededBytes ts pkt f := by
  obtain ⟨out, isNg, useSpb, haveIdb, sysErr, recCnt, pktCnt, calls⟩ := f
  cases isNg
  · rfl
  · cases haveIdb <;>
      simp [CaptureFile.pcapWrite, CaptureFile.pcapWriteXpb, PcapSink.whole, neededBytes,
        packetBytes]

variable {plan : ℕ → Fwrite} {f : PcapSink} {pkt : Bytes} {ts : ℕ}

theorem attempt_write (hsys : f.sysErr = false) :
    Attempt (DataCut plan pkt f) (neededBytes ts pkt f) f (writePkt plan ts pkt f) := by
  rw [writePkt, neededBytes]
  by_cases hng : f.isNg = true
  · rw [if_pos hng, if_pos hng, pcapWriteXpb, bind_of_ok (get_run f)]
    by_cases hidb : f.haveIdb = true
    · rw [bind_when_neg (by simpa using hidb), if_pos hidb, List.nil_append]
      exact (attempt_xpb f.useSpb).congr (by simp [DataCut, hng, hsys, hidb, hdrCall])
    · rw [bind_when_pos (by simpa using hidb), if_neg hidb]
      refine (attempt_idb.seq fun g _ => attempt_xpb f.useSpb).congr ?_
      rw [idb_ok (q := fun n => Full plan n (hdrLen f.useSpb) ∧ ¬ Full plan (n+1) pkt.length)]
      simp [DataCut, hng, hsys, hidb, hdrCall, and_assoc]
  · rw [if_neg hng, if_neg hng]
    refine Attempt.congr ?_ (p := False) (by simp [DataCut, hng])
    refine ((attempt_block _).seq (q := fun _ => False) fun g _ => ?_).congr (by simp)
    exact attempt_data pkt

theorem neededBytes_pos (ts : ℕ) (pkt : Bytes) (f : PcapSink) :
    0 < (neededBytes ts pkt f).length := by
  have hstart {fs : List (ℕ × ℕ)} {b : Bytes} (h : 0 < (fs.map Prod.fst).sum) :
      0 < (fields false fs ++ b).length := by
    rw [List.length_append, length_fields]
    omega
  unfold neededBytes packetBytes
  split_ifs
  · exact hstart (by simp)
  · exact hstart (by simp)
  · rw [List.length_append]
    exact Nat.add_pos_left (hstart (by simp)) _
  · rw [List.length_append]
    exact Nat.add_pos_left (hstart (by simp)) _
  · exact hstart (by simp)

/-- A failure is hidden exactly when the packet data of a block come short. -/
theorem failures_reported_iff (plan : ℕ → Fwrite) (ts : ℕ) (pkt : Bytes) (f : PcapSink) :
    Reports plan ts pkt f ↔ ¬ DataCut plan pkt f := by
  have hcut (c g : Bytes) (hc : c.length < (neededBytes ts pkt f).length) (hg : g = f.out ++ c) :
      g ≠ f.out ++ neededBytes ts pkt f := by
    rw [hg]
    intro h
    rw [List.append_cancel_left h] at hc
    omega
  simp only [Reports, Complete, whole_out, pcapWrite]
  by_cases hsys : f.sysErr = true
  · have hnot : ¬ DataCut plan pkt f := fun h => by simp [h.2.1] at hsys
    have hne : f.out ≠ f.out ++ neededBytes ts pkt f :=
      hcut [] f.out (neededBytes_pos ts pkt f) (List.append_nil _).symm
    simp [hsys, hnot, hne]
  · have hattempt : Attempt (DataCut plan pkt f) _ f (writePkt plan ts pkt f) :=
      attempt_write (by simpa using hsys)
    rw [if_neg hsys]
    cases hr : writePkt plan ts pkt f with
    | fault d => exact d.elim
    | ok u g =>
      rw [hr] at hattempt
      cases hattempt with
      | done _ hp hout hcnt => simp [counted, hout, hcnt, hp]
    | exit rc g =>
      rw [hr] at hattempt
      cases hattempt with
      | failed _ _ c hp hrc hc hout hcnt =>
        have hne := hcut c g.out hc hout
        simp [hrc, hcnt, hp, hne]
      | hidden _ c hp hc hout hcnt =>
        have hne := hcut c g.out hc hout
        simp [counted, hp, hne]

def fullDisk (i : ℕ) : Fwrite := if i = 1 then ⟨0, true⟩ else ⟨100, false⟩

def simpleSink : PcapSink := ⟨[], true, true, true, false, 0, 0, 0⟩

/-- Only the header of the block is written, and the packet is counted. -/
theorem lost_packet_counted : (pcapWrite fullDisk 0 [1, 2, 3, 4] simpleSink).1 = 0 ∧
    (pcapWrite fullDisk 0 [1, 2, 3, 4] simpleSink).2.pktCnt = 1 ∧
      ¬ Reports fullDisk 0 [1, 2, 3, 4] simpleSink := by
  refine ⟨by decide +kernel, by decide +kernel, fun h => ?_⟩
  have hcomplete := h.1 (by decide +kernel)
  have hlen := congrArg List.length hcomplete
  exact absurd hlen (by decide +kernel)

end DnsPkt.CaptureFailures
