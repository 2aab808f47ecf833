import DnsPkt.RecordChain
import DnsPkt.ScratchText
import Mathlib.Tactic.IntervalCases

/-!
# Decoding a packet and an extension of it

Bytes behind a packet and more room for the report change nothing in a
decode that falls through: every check that passed still passes and every
byte that was read is the same. So an accepted packet stays accepted when it
is extended, with the same final offset. A packet that is accepted up to its
last byte therefore has no accepted strict prefix.
-/

set_option autoImplicit false

namespace DnsPkt.SelfDelimiting
open DnsPkt.CheckedRun DnsPkt.CheckedRun.Run DnsPkt.Octets DnsPkt.Protocol
open DnsPkt.MessageStore DnsPkt.ReportText DnsPkt.RecordDecoder DnsPkt.MessageDecoder
open DnsPkt.RecordRun DnsPkt.RecordFrame DnsPkt.RecordEntry DnsPkt.MessageRun
open DnsPkt.AcceptedRun DnsPkt.RecordChain DnsPkt.ScratchText
open DnsPkt.PacketBounds (fixedLen)
open DnsPkt.ScratchBounds (Fits pieces)

structure Grows (a b : DecEnv) : Prop where
  pkt : a.pkt <+: b.pkt
  needEmsg : b.needEmsg = a.needEmsg
  loadMsg : b.loadMsg = a.loadMsg
  emsgLen : a.emsgLen ≤ b.emsgLen

section Extension

variable {a b : DecEnv} (hab : Grows a b)
include hab

theorem extends_readBytes (i n : ℕ) : Extends (readBytes a i n) (readBytes b i n) := by
  intro s x t h
  obtain ⟨hn, rfl, rfl⟩ := readBytes_ok h
  have hl := hab.pkt.length_le
  rw [readBytes_run b (by omega)]
  congr 1
  rcases hn with rfl | hn
  · simp [slice]
  · exact slice_extend hab.pkt i n hn

omit hab in
/-- A check that can only become easier to pass. -/
theorem extends_guard {p q : Prop} [Decidable p] [Decidable q] (hqp : q → p)
    (group field : DnsLocation) (ec : ℤ) :
    Extends (when p (retErr group field ec)) (when q (retErr group field ec)) := by
  intro s x t h
  by_cases hp : p
  · rw [when_pos hp] at h
    cases h
  · rw [when_neg hp] at h
    rw [when_neg (mt hqp hp)]
    exact h

theorem describe_eq (w : ℕ) (rc : ℤ) (text : Bytes) :
    describe b w rc text = describe a w rc text := by
  unfold describe
  rw [hab.needEmsg]

theorem extends_load {x y : Dec Unit} (hxy : Extends x y) :
    Extends (when (a.loadMsg = true) x) (when (b.loadMsg = true) y) :=
  extends_when (by rw [hab.loadMsg]) hxy

theorem extends_describe (w : ℕ) (rc : ℤ) (text : Bytes) :
    Extends (describe a w rc text) (describe b w rc text) := by
  rw [describe_eq hab]
  exact Extends.refl _

theorem extends_nameField (field : DnsLocation) (w : ℕ) :
    Extends (nameField a field w) (nameField b field w) := by
  intro s n t h
  by_cases hw : w ≤ dnsMsgSize
  · obtain ⟨text, e, hn, hfit, rfl, rfl⟩ := nameField_ok hw h
    exact nameField_run b field (hn.extend hab.pkt) hfit
  · rcases nameField_over a field (Nat.lt_of_not_le hw) s with ⟨-, hx⟩ | ⟨-, c, u, hx⟩
    · rw [hx] at h
      cases h
    · rw [hx] at h
      cases h

theorem extends_loadName (sc : Sect) (w : ℕ) (f : ℕ → Ptr → DnsRr Ptr → DnsRr Ptr) :
    Extends (loadName a sc w f) (loadName b sc w f) := extends_load hab (Extends.refl _)

theorem extends_loadRdata (sc : Sect) (f : Rdata Ptr → Rdata Ptr) :
    Extends (loadRdata a sc f) (loadRdata b sc f) := extends_load hab (Extends.refl _)

theorem extends_describeIp (start w : ℕ) (rc : ℤ) :
    Extends (describeIp a start w rc) (describeIp b start w rc) := by
  unfold describeIp
  rw [hab.needEmsg]
  split_ifs
  · exact Extends.refl _
  · exact (extends_readBytes hab _ _).bind fun _ => Extends.refl _
  · exact Extends.refl _

theorem extends_rdataA (sc : Sect) (h : RrHdr) (w start : ℕ) (rc : ℤ) :
    Extends (rdataA a sc h w start rc) (rdataA b sc h w start rc) :=
  (Extends.refl _).bind fun _ =>
    (extends_load hab ((extends_readBytes hab _ _).bind fun _ =>
      extends_loadRdata hab sc _)).bind fun _ =>
    (Extends.refl _).bind fun _ => extends_describeIp hab start w rc

theorem extends_rdataAaaa (sc : Sect) (h : RrHdr) (w start : ℕ) (rc : ℤ) :
    Extends (rdataAaaa a sc h w start rc) (rdataAaaa b sc h w start rc) :=
  (Extends.refl _).bind fun _ => (Extends.refl _).bind fun _ =>
    (extends_load hab ((extends_readBytes hab _ _).bind fun _ =>
      extends_loadRdata hab sc _)).bind fun _ => extends_describeIp hab start w rc

theorem extends_rdataName (sc : Sect) (field : DnsLocation)
    (f : ℕ → Ptr → Rdata Ptr → Rdata Ptr) (w : ℕ) :
    Extends (rdataName a sc field f w) (rdataName b sc field f w) :=
  (extends_nameField hab field w).bind fun _ =>
    (extends_loadName hab sc w _).bind fun _ => Extends.refl _

theorem extends_describeVals (vals : List (String × UInt32)) (w : ℕ) (rc : ℤ) :
    Extends (describeVals a vals w rc) (describeVals b vals w rc) := by
  induction vals generalizing w rc with
  | nil => exact Extends.refl _
  | cons v rest ih => exact (extends_describe hab w rc _).bind fun p => ih p.1 p.2

theorem extends_rdataSoa (sc : Sect) (w rdEnd : ℕ) (rc : ℤ) :
    Extends (rdataSoa a sc w rdEnd rc) (rdataSoa b sc w rdEnd rc) :=
  (extends_describe hab w rc _).bind fun p1 =>
    (extends_nameField hab _ p1.1).bind fun _ =>
    (extends_loadName hab sc p1.1 _).bind fun _ =>
    (extends_describe hab _ rc _).bind fun p2 =>
    (extends_nameField hab _ p2.1).bind fun _ =>
    (extends_load hab (Extends.refl _)).bind fun _ =>
    (Extends.refl _).bind fun _ => (Extends.refl _).bind fun _ =>
    (extends_readBytes hab _ _).bind fun _ =>
    (Extends.refl _).bind fun _ =>
    (extends_describeVals hab _ _ _).bind fun _ =>
    (extends_loadRdata hab sc _).bind fun _ => Extends.refl _

theorem extends_strField (field : DnsLocation) (label : Bytes) (rdEnd w : ℕ) (rc : ℤ)
    (load : Bytes → Dec Unit) :
    Extends (strField a field label rdEnd w rc load) (strField b field label rdEnd w rc load) :=
  (Extends.refl _).bind fun _ =>
    (extends_readBytes hab _ _).bind fun _ =>
    (Extends.refl _).bind fun _ => (Extends.refl _).bind fun _ =>
    (extends_readBytes hab _ _).bind fun _ =>
    (extends_describe hab w rc _).bind fun _ =>
    (extends_load hab (Extends.refl _)).bind fun _ =>
    (Extends.refl _).bind fun _ => Extends.refl _

theorem extends_rdataHinfo (sc : Sect) (h : RrHdr) (w rdEnd : ℕ) (rc : ℤ) :
    Extends (rdataHinfo a sc h w rdEnd rc) (rdataHinfo b sc h w rdEnd rc) :=
  (Extends.refl _).bind fun _ =>
    (extends_strField hab _ _ rdEnd w rc _).bind fun _ =>
    (Extends.refl _).bind fun _ => (Extends.refl _).bind fun _ =>
    (extends_strField hab _ _ rdEnd _ _ _).bind fun _ => Extends.refl _

theorem extends_rdataNumsName (sc : Sect) (h : RrHdr) (field : DnsLocation) (len : ℕ)
    (text : Bytes → Bytes) (setNums : Bytes → Rdata Ptr → Rdata Ptr)
    (setName : Ptr → Rdata Ptr → Rdata Ptr) (w start : ℕ) (rc : ℤ) :
    Extends (rdataNumsName a sc h field len text setNums setName w start rc)
      (rdataNumsName b sc h field len text setNums setName w start rc) :=
  (Extends.refl _).bind fun _ =>
    (extends_readBytes hab _ _).bind fun _ =>
    (Extends.refl _).bind fun _ =>
    (extends_describe hab w rc _).bind fun p =>
    (extends_nameField hab _ p.1).bind fun _ =>
    (extends_loadRdata hab sc _).bind fun _ =>
    (extends_loadName hab sc p.1 _).bind fun _ => Extends.refl _

theorem extends_rdataMx (sc : Sect) (h : RrHdr) (w start : ℕ) (rc : ℤ) :
    Extends (rdataMx a sc h w start rc) (rdataMx b sc h w start rc) := by
  rw [rdataMx_eq, rdataMx_eq]
  exact extends_rdataNumsName hab sc h _ _ _ _ _ w start rc

theorem extends_rdataSrv (sc : Sect) (h : RrHdr) (w start : ℕ) (rc : ℤ) :
    Extends (rdataSrv a sc h w start rc) (rdataSrv b sc h w start rc) := by
  rw [rdataSrv_eq, rdataSrv_eq]
  exact extends_rdataNumsName hab sc h _ _ _ _ _ w start rc

theorem extends_txtLoop (sc : Sect) (rdEnd k w : ℕ) (rc : ℤ) :
    Extends (txtLoop a sc rdEnd k w rc) (txtLoop b sc rdEnd k w rc) := by
  induction k generalizing w rc with
  | zero => exact Extends.refl _
  | succ k ih =>
    refine (Extends.refl _).bind fun off => ?_
    split
    · exact (extends_strField hab _ _ rdEnd w rc _).bind fun p => ih p.1 p.2
    · exact Extends.refl _

theorem extends_rdataOpt (sc : Sect) (h : RrHdr) (w rdEnd : ℕ) :
    Extends (rdataOpt a sc h w rdEnd) (rdataOpt b sc h w rdEnd) :=
  (Extends.refl _).bind fun _ => (extends_load hab (Extends.refl _)).bind fun _ => Extends.refl _

theorem extends_rrRdata (sc : Sect) (h : RrHdr) (w start rdEnd : ℕ) (rc : ℤ) :
    Extends (rrRdata a sc h w start rdEnd rc) (rrRdata b sc h w start rdEnd rc) := by
  unfold rrRdata
  cases rrKind h.rrType with
  | a => exact extends_rdataA hab sc h w start rc
  | ns => exact extends_rdataName hab sc _ _ w
  | cname => exact extends_rdataName hab sc _ _ w
  | soa => exact extends_rdataSoa hab sc w rdEnd rc
  | ptr => exact extends_rdataName hab sc _ _ w
  | hinfo => exact extends_rdataHinfo hab sc h w rdEnd rc
  | mx => exact extends_rdataMx hab sc h w start rc
  | txt => exact (extends_txtLoop hab sc rdEnd _ w rc).bind fun _ => Extends.refl _
  | aaaa => exact extends_rdataAaaa hab sc h w start rc
  | srv => exact extends_rdataSrv hab sc h w start rc
  | opt => exact extends_rdataOpt hab sc h w rdEnd
  | any => exact Extends.refl _
  | other => exact Extends.refl _

theorem extends_rrSlot (sc : Sect) : Extends (rrSlot a sc) (rrSlot b sc) :=
  (Extends.refl _).bind fun _ => extends_when (by rw [hab.loadMsg]) (Extends.refl _)

theorem extends_rrName (sc : Sect) : Extends (rrName a sc) (rrName b sc) :=
  (extends_nameField hab _ 0).bind fun _ =>
    (extends_loadName hab sc 0 _).bind fun _ => Extends.refl _

theorem extends_rrHdr (sc : Sect) : Extends (rrHdr a sc) (rrHdr b sc) :=
  (Extends.refl _).bind fun _ =>
    (extends_guard (fun h => by have := hab.pkt.length_le; omega) _ _ _).bind fun _ =>
    (extends_readBytes hab _ _).bind fun _ =>
    (Extends.refl _).bind fun _ =>
    (extends_load hab (Extends.refl _)).bind fun _ => Extends.refl _

theorem dnsWmsg_zero {text : Bytes} {s t : DecState} (h : dnsWmsg a text s = .ok 0 t) :
    dnsWmsg b text s = .ok 0 t := by
  have hl := hab.emsgLen
  unfold dnsWmsg at *
  dsimp only at *
  split_ifs at h with ha
  · simp at h
  · rw [if_neg (by omega)]
    exact h

theorem rrReport_zero {sc : Sect} {h : RrHdr} {out : RdataOut} {s t : DecState}
    (hrun : rrReport a sc h out s = .ok 0 t) : rrReport b sc h out s = .ok 0 t := by
  unfold rrReport at *
  rw [hab.needEmsg]
  split at hrun
  · next he =>
    obtain ⟨name, m1, h1, hrun⟩ := (bind_ok _ _ _ _ _).mp hrun
    obtain ⟨desc, m2, h2, hrun⟩ := (bind_ok _ _ _ _ _).mp hrun
    rw [if_pos he, bind_of_ok h1, bind_of_ok h2]
    exact dnsWmsg_zero hab hrun
  · next he =>
    rw [if_neg he]
    exact hrun

theorem rrBody_zero {sc : Sect} {s t : DecState} (h : rrBody a sc s = .ok 0 t) :
    rrBody b sc s = .ok 0 t := by
  unfold rrBody at *
  obtain ⟨_, s1, h1, h⟩ := (bind_ok _ _ _ _ _).mp h
  obtain ⟨n, s2, h2, h⟩ := (bind_ok _ _ _ _ _).mp h
  obtain ⟨hd, s3, h3, h⟩ := (bind_ok _ _ _ _ _).mp h
  obtain ⟨start, s4, h4, h⟩ := (bind_ok _ _ _ _ _).mp h
  obtain ⟨_, s5, h5, h⟩ := (bind_ok _ _ _ _ _).mp h
  obtain ⟨out, s6, h6, h⟩ := (bind_ok _ _ _ _ _).mp h
  obtain ⟨off, s7, h7, h⟩ := (bind_ok _ _ _ _ _).mp h
  obtain ⟨_, s8, h8, h⟩ := (bind_ok _ _ _ _ _).mp h
  obtain ⟨_, s9, h9, h⟩ := (bind_ok _ _ _ _ _).mp h
  have hl := hab.pkt.length_le
  rw [bind_of_ok (extends_rrSlot hab sc _ _ _ h1), bind_of_ok (extends_rrName hab sc _ _ _ h2),
    bind_of_ok (extends_rrHdr hab sc _ _ _ h3), bind_of_ok h4,
    bind_of_ok (extends_guard (fun hlt => by omega) _ _ _ _ _ _ h5),
    bind_of_ok (extends_rrRdata hab sc hd _ _ _ _ _ _ _ h6), bind_of_ok h7, bind_of_ok h8,
    bind_of_ok (extends_load hab (Extends.refl _) _ _ _ h9)]
  exact rrReport_zero hab h

theorem extends_qdName : Extends (qdName a) (qdName b) := by
  intro s n t h
  obtain ⟨text, e, hn, hfit, rfl, rfl⟩ := qdName_ok h
  exact qdName_run b (hn.extend hab.pkt) hfit

theorem extends_qdFixed : Extends (qdFixed a) (qdFixed b) :=
  (Extends.refl _).bind fun _ =>
    (extends_guard (fun h => by have := hab.pkt.length_le; omega) _ _ _).bind fun _ =>
    (extends_readBytes hab _ _).bind fun _ =>
    (Extends.refl _).bind fun _ => Extends.refl _

theorem qdBody_zero {s t : DecState} (h : qdBody a s = .ok 0 t) : qdBody b s = .ok 0 t := by
  unfold qdBody at *
  obtain ⟨_, s1, h1, h⟩ := (bind_ok _ _ _ _ _).mp h
  obtain ⟨n, s2, h2, h⟩ := (bind_ok _ _ _ _ _).mp h
  obtain ⟨⟨qtype, qclass⟩, s3, h3, h⟩ := (bind_ok _ _ _ _ _).mp h
  obtain ⟨_, s4, h4, h⟩ := (bind_ok _ _ _ _ _).mp h
  have hslot : Extends (qdSlot a) (qdSlot b) :=
    (Extends.refl _).bind fun _ => extends_when (by rw [hab.loadMsg]) (Extends.refl _)
  rw [bind_of_ok (hslot _ _ _ h1), bind_of_ok (extends_qdName hab _ _ _ h2),
    bind_of_ok (extends_qdFixed hab _ _ _ h3)]
  dsimp only
  rw [bind_of_ok (extends_load hab (Extends.refl _) _ _ _ h4), hab.needEmsg]
  split at h
  · next he =>
    obtain ⟨name, m, hm, h⟩ := (bind_ok _ _ _ _ _).mp h
    rw [if_pos he, bind_of_ok hm]
    exact dnsWmsg_zero hab h
  · next he =>
    rw [if_neg he]
    exact h

omit hab in
theorem loop_zero {x y : Dec ℤ} (hx : Keeps errFrame x)
    (hxy : ∀ s t, x s = .ok 0 t → y s = .ok 0 t) {loc : DnsLocation} {i n : ℕ} {s t : DecState}
    (h : loop (rowStep (call x) loc) i n s = .ok () t) (ht : t.dec.errs = []) :
    loop (rowStep (call y) loc) i n s = .ok () t := by
  induction n generalizing i s with
  | zero => exact h
  | succ n ih =>
    obtain ⟨_, m, hm, hr⟩ := (bind_ok _ _ _ _ _).mp h
    have hmerrs := nil_of_grown
      ((keeps_loop (fun i => keeps_rowStep growFrame_calls (grows_entry hx) loc i) (i+1) n).ok
        hr).1 ht
    have hbody := (entry_clean hx (rowStep_ok.mp hm) hmerrs).2
    have hm' : rowStep (call y) loc i s = .ok () m :=
      rowStep_ok.mpr ((call_ok _ _ _ _).mpr (.inl (hxy s m hbody)))
    rw [loop_succ_of_ok hm']
    exact ih hr

omit hab in
theorem rows_of_loop {entry : Dec ℤ} {loc : DnsLocation} {n : ℕ} {s t : DecState}
    (h : loop (rowStep entry loc) 0 n s = .ok () t) : rows entry loc n s = .ok 0 t := by
  refine (call_ok _ _ _ _).mpr (.inl ?_)
  rw [bind_of_ok h]
  rfl

theorem hdrOf_eq (h : dnsHdrLen ≤ a.pkt.length) : hdrOf b.pkt = hdrOf a.pkt := by
  unfold hdrOf
  rw [slice_extend hab.pkt 0 dnsHdrLen (by omega)]

theorem hdrBody_zero (he : a.needEmsg = true) {s t : DecState} (hlen : dnsHdrLen ≤ a.pkt.length)
    (h : hdrBody a s = .ok 0 t) : hdrBody b s = .ok 0 t := by
  have hl := hab.pkt.length_le
  rw [hdrBody_run he hlen] at h
  obtain ⟨_, m, hm, hw⟩ := (bind_ok _ _ _ _ _).mp h
  have hstate : hdrState b.pkt s = hdrState a.pkt s := by
    unfold hdrState
    rw [hdrOf_eq hab hlen]
  rw [hdrBody_run (by rw [hab.needEmsg]; exact he) (by omega), hdrOf_eq hab hlen, hstate,
    bind_of_ok hm]
  exact dnsWmsg_zero hab hw

theorem decodeFront_zero (he : a.needEmsg = true) {m : DnsMsg} {t : DecState}
    (h : decodeFront a (initState m) = .ok () t) (ht : t.dec.errs = []) :
    decodeFront b (initState m) = .ok () t := by
  obtain ⟨hlen, s, hbody, -, -, hhdr, hloop, -⟩ := decodeFront_clean he h ht
  have hh := hdrBody_zero hab he hlen hbody
  have hq := rows_of_loop (loop_zero (qdBody_errs a) (fun s t => qdBody_zero hab) hloop ht)
  unfold decodeFront
  rw [bind_of_ok (modify_run _ _)]
  have hret : orReturn (decodeHdr b) (initState (dnsMsgReset m)) = .ok () s :=
    orReturn_ok.mpr ((call_ok _ _ _ _).mpr (.inl hh))
  refine (bind_of_ok hret _).trans (orReturn_ok.mpr ?_)
  rw [decodeQd, bind_of_ok (get_run s), hhdr]
  exact hq

theorem decodeSects_zero {scs : List Sect} {s t : DecState}
    (h : decodeSects a scs s = .ok () t) (ht : t.dec.errs = []) :
    decodeSects b scs s = .ok () t := by
  induction scs generalizing s with
  | nil => exact h
  | cons sc rest ih =>
    obtain ⟨_, m, hm, hr⟩ := (bind_ok _ _ _ _ _).mp h
    have hmerrs := (decodeSects_clean hr ht).1
    have hsect := orReturn_ok.mp hm
    rw [decodeSect, bind_of_ok (get_run s)] at hsect
    obtain ⟨-, hloop, -⟩ := rows_clean (rrBody_errs a sc) hsect rfl hmerrs
    have hm' : orReturn (decodeSect b sc) s = .ok () m := by
      refine orReturn_ok.mpr ?_
      rw [decodeSect, bind_of_ok (get_run s)]
      exact rows_of_loop (loop_zero (rrBody_errs a sc) (fun s t => rrBody_zero hab) hloop hmerrs)
    rw [decodeSects, bind_of_ok hm']
    exact ih hr

end Extension

theorem dnsWmsg_total (env : DecEnv) (text : Bytes) (s : DecState) :
    ∃ rc t, dnsWmsg env text s = .ok rc t := by
  unfold dnsWmsg
  dsimp only
  split_ifs <;> exact ⟨_, _, rfl⟩

theorem dnsWmsg_room {env : DecEnv} {text : Bytes} {s : DecState}
    (h : s.dec.emsg.text.length+text.length < env.emsgLen) : ∃ t, dnsWmsg env text s = .ok 0 t ∧
      t.dec.errs = s.dec.errs ∧ t.dec.offset = s.dec.offset := by
  unfold dnsWmsg
  dsimp only
  rw [if_neg (by omega)]
  exact ⟨_, rfl, rfl, rfl⟩

theorem sizeCheck_room (env : DecEnv) {s : DecState}
    (h : s.dec.emsg.text.length+(sizeLine env.pkt.length s.dec.udpSize).length < env.emsgLen) :
    ∃ t, sizeCheck env s = .ok 0 t ∧ t.dec.errs = s.dec.errs ∧ t.dec.offset = s.dec.offset := by
  rw [sizeCheck, bind_of_ok (get_run s)]
  split
  · exact dnsWmsg_room h
  · exact ⟨s, rfl, rfl, rfl⟩

theorem dnsDecGenmsg_empty (env : DecEnv) {s : DecState} (h : s.dec.errs = []) :
    ∃ t, dnsDecGenmsg env s = .ok 0 t ∧ t.dec.offset = s.dec.offset := by
  rw [dnsDecGenmsg, bind_of_ok (get_run s), if_pos h]
  by_cases hroom : env.emsgLen ≤ s.dec.emsg.text.length
  · obtain ⟨rc, t, ht⟩ := dnsWmsg_total env (ascii "[ERROR] Missing PDU desc") s
    refine ⟨t, ?_, (dnsWmsg_ok ht).2.1⟩
    rw [when_pos hroom]
    have hline : (dnsWmsg env (ascii "[ERROR] Missing PDU desc") >>= fun _ => pure ()) s =
        .ok () t := bind_of_ok ht _
    exact bind_of_ok hline _
  · refine ⟨s, ?_, rfl⟩
    rw [when_neg hroom]
    rfl

theorem validateRun_of_parts {env : DecEnv} {s s0 t1 t2 : DecState}
    (h0 : decodeFront env s = .ok () s0) (h1 : decodeSects env [.an, .ns, .ar] s0 = .ok () t1)
    (h2 : sizeCheck env t1 = .ok 0 t2) (ht : t2.dec.errs = []) :
    ∃ t, validateRun env s = .ok 0 t ∧ t.dec.offset = t2.dec.offset := by
  have hmsg : decodeMsg env s = .ok 0 t2 := by
    refine (call_ok _ _ _ _).mpr (.inl ?_)
    rw [bind_of_ok h0, bind_of_ok h1]
    exact h2
  obtain ⟨t, hgen, hoff⟩ := dnsDecGenmsg_empty env ht
  refine ⟨t, ?_, hoff⟩
  unfold validateRun
  rw [bind_of_ok hmsg, bind_of_ok hgen]
  rfl

/-- An accepted packet stays accepted when bytes are appended, for every
report buffer that is large enough. -/
theorem accepted_append {pkt : Bytes} {emsgLen : ℕ} {t : DecState}
    (h : dnsValidate pkt emsgLen = .ok 0 t) (q : Bytes) :
    ∃ need, ∀ cap, need ≤ cap → ∃ t', dnsValidate (pkt ++ q) cap = .ok 0 t' ∧
      t'.dec.offset = t.dec.offset := by
  obtain ⟨s0, t1, t2, h0, h1, -, hs0, ht1, hoff⟩ := dnsValidate_zero h
  refine ⟨max emsgLen
    (t1.dec.emsg.text.length+(sizeLine (pkt ++ q).length t1.dec.udpSize).length+1),
    fun cap hcap => ?_⟩
  have hab : Grows (validateEnv pkt emsgLen) (validateEnv (pkt ++ q) cap) :=
    ⟨List.prefix_append pkt q, rfl, rfl, by simp only [validateEnv]; omega⟩
  obtain ⟨t3, h3, herrs, hoff3⟩ := sizeCheck_room (validateEnv (pkt ++ q) cap) (s := t1)
    (by simp only [validateEnv]; omega)
  obtain ⟨t', ht', hoff'⟩ := validateRun_of_parts (decodeFront_zero hab rfl h0 hs0)
    (decodeSects_zero hab h1 ht1) h3 (herrs.trans ht1)
  exact ⟨t', ht', by rw [hoff', hoff3, hoff]⟩

theorem linked_offset_le {env : DecEnv} {vs : List (Sect × DecState)} {s t : DecState}
    (h : Linked (RecordStep env) Prod.snd s vs t) (hs : s.dec.offset ≤ env.pkt.length) :
    t.dec.offset ≤ env.pkt.length := by
  induction vs generalizing s with
  | nil =>
    obtain rfl : t = s := h
    exact hs
  | cons v vs ih =>
    obtain ⟨rfl, u, hu, hr⟩ := h
    obtain ⟨e, -, hle, -⟩ := recordStep_end hu
    exact ih hr hle

theorem accepted_offset_le {pkt : Bytes} {emsgLen : ℕ} {t : DecState}
    (h : dnsValidate pkt emsgLen = .ok 0 t) : t.dec.offset ≤ pkt.length := by
  obtain ⟨s0, t1, t2, h0, h1, -, hs0, ht1, hoff⟩ := dnsValidate_zero h
  obtain ⟨hlen, s, -, -, hsoff, -, hloop, -⟩ := decodeFront_clean rfl h0 hs0
  have hq := (loop_questionsEnd rfl 0 _ hloop hs0).2 (by omega)
  rw [hoff]
  exact linked_offset_le (recordVisits_linked h0 h1 ht1) hq

/-- A packet that is accepted up to its last byte has no accepted strict prefix. -/
theorem no_accepted_strict_part {pkt : Bytes} {emsgLen cap k : ℕ} {t t' : DecState}
    (h : dnsValidate pkt emsgLen = .ok 0 t) (hend : t.dec.offset = pkt.length)
    (hk : k < pkt.length) : dnsValidate (pkt.take k) cap ≠ .ok 0 t' := by
  intro h'
  have hle := accepted_offset_le h'
  obtain ⟨n1, hn1⟩ := accepted_append h' (pkt.drop k)
  obtain ⟨n2, hn2⟩ := accepted_append h []
  obtain ⟨u1, hu1, hoff1⟩ := hn1 (max n1 n2) (by omega)
  obtain ⟨u2, hu2, hoff2⟩ := hn2 (max n1 n2) (by omega)
  rw [List.take_append_drop] at hu1
  rw [List.append_nil] at hu2
  obtain rfl : u1 = u2 := by
    rw [hu1] at hu2
    cases hu2
    rfl
  rw [List.length_take] at hle
  omega

def codesFrame : Frame DecState ℤ Fault where
  keep _ _ := True
  leave _ c _ := c = 0 ∨ c = -1
  raise _ := True
  refl _ := trivial
  trans _ _ := trivial
  lift _ h := h

def Codes (x : Dec ℤ) : Prop := Gives (fun c => c = 0 ∨ c = -1) x

theorem codes_retErr {α : Type} (group field : DnsLocation) (ec : ℤ) :
    Keeps codesFrame (retErr group field ec : Dec α) := by
  refine .of_exit fun s => ⟨_, _, rfl, ?_⟩
  unfold dnsDecErr
  split
  · exact .inr rfl
  · exact .inl rfl

theorem codes_call {x : Dec ℤ} (hx : Keeps codesFrame x) (hok : Codes x) :
    Codes (call x : Dec ℤ) := by
  intro s c t h
  rcases (call_ok _ _ _ _).mp h with h | h
  · exact hok s c t h
  · exact hx.exit h

theorem codes_dnsWmsg (env : DecEnv) (text : Bytes) : Codes (dnsWmsg env text) := by
  intro s c t h
  unfold dnsWmsg at h
  dsimp only at h
  split_ifs at h <;> cases h
  · exact .inr rfl
  · exact .inl rfl

theorem codes_decodeHdr (env : DecEnv) : Codes (decodeHdr env) := by
  refine codes_call ?_ (gives_bind fun _ => gives_bind fun _ => gives_bind fun _ =>
    gives_bind fun _ => gives_bind fun _ => gives_bind fun _ => gives_bind fun _ =>
    codes_dnsWmsg env _)
  refine (keeps_when _ fun _ => codes_retErr _ _ _).bind fun _ => Keeps.bind ?_ fun b =>
    (keeps_modify fun _ => trivial).bind fun _ => (keeps_modify fun _ => trivial).bind fun _ =>
    (keeps_when _ fun _ => keeps_exit fun _ => Or.inl rfl).bind fun _ =>
    (keeps_modify fun _ => trivial).bind fun _ => Keeps.bind ?_ fun _ => ?_
  · refine ⟨fun _ => trivial, fun h => ?_, fun _ => trivial⟩
    unfold readBytes at h
    split at h <;> cases h
  · unfold checkFlags
    split
    · exact keeps_when _ fun _ => keeps_modify fun _ => trivial
    · exact keeps_when _ fun _ => keeps_modify fun _ => trivial
  · refine .of_ok fun s => ?_
    obtain ⟨rc, t, h⟩ := dnsWmsg_total env (hdrLine (dnsHdrDecode b)) s
    exact ⟨rc, t, h, trivial⟩

theorem codes_rows {entry : Dec ℤ} (hentry : ∀ s c t, entry s ≠ .exit c t) (loc : DnsLocation)
    (n : ℕ) : Codes (rows entry loc n) := by
  refine codes_call ?_ (gives_bind fun _ => gives_pure (.inl rfl))
  refine (keeps_loop (fun i => ?_) 0 n).bind fun _ => keeps_pure _
  refine Keeps.bind ⟨fun _ => trivial, fun h => absurd h (hentry _ _ _), fun _ => trivial⟩
    fun _ => keeps_when _ fun _ => codes_retErr _ _ _

theorem codes_orReturn {x : Dec ℤ} (hx : Codes x) (hexit : ∀ s c t, x s ≠ .exit c t) :
    Keeps codesFrame (orReturn x) := by
  refine ⟨fun _ => trivial, fun {s e t} h => ?_, fun _ => trivial⟩
  rcases (bind_exit _ _ _ _ _).mp h with h | ⟨rc, m, hm, h⟩
  · exact absurd h (hexit _ _ _)
  · by_cases hrc : rc ≠ 0
    · rw [when_pos hrc] at h
      cases h
      exact hx _ _ _ hm
    · rw [when_neg hrc] at h
      cases h

theorem codes_decodeSects (env : DecEnv) (scs : List Sect) :
    Keeps codesFrame (decodeSects env scs) := by
  induction scs with
  | nil => exact keeps_pure _
  | cons sc rest ih =>
    refine (codes_orReturn (fun s c t h => ?_)
      fun s c t => decodeSect_ne_exit env sc s t c).bind fun _ => ih
    rw [decodeSect, bind_of_ok (get_run s)] at h
    exact codes_rows (fun _ _ _ => call_ne_exit _ _ _ _) _ _ s c t h

theorem codes_decodeMsg (env : DecEnv) : Codes (decodeMsg env) := by
  have hqd : Codes (decodeQd env) :=
    gives_bind fun _ => codes_rows (fun _ _ _ => call_ne_exit _ _ _ _) _ _
  have hqdx (s t : DecState) (c : ℤ) : decodeQd env s ≠ .exit c t := by
    rw [decodeQd, bind_of_ok (get_run s)]
    exact call_ne_exit _ _ _ _
  have hsize : Codes (sizeCheck env) := by
    refine gives_bind fun s => ?_
    split
    · exact codes_dnsWmsg env _
    · exact gives_pure (.inl rfl)
  refine codes_call ?_ (gives_bind fun _ => gives_bind fun _ => hsize)
  refine Keeps.bind ?_ fun _ => (codes_decodeSects env _).bind fun _ =>
    ⟨fun _ => trivial, fun h => absurd h (sizeCheck_ne_exit _ _ _ _), fun _ => trivial⟩
  exact (keeps_modify fun _ => trivial).bind fun _ =>
    (codes_orReturn (codes_decodeHdr env) fun _ _ _ => call_ne_exit _ _ _ _).bind fun _ =>
    codes_orReturn hqd fun s c t => hqdx s t c

def straightFrame : Frame DecState ℤ Fault where
  keep _ _ := True
  leave _ _ _ := False
  raise _ := False
  refl _ := trivial
  trans _ _ := trivial
  lift _ h := h

section ErrorReport

variable {F : Frame DecState ℤ Fault} (hput : ∀ s b, F.keep s (put s 0 b))
  (hreport : ∀ s e, F.keep s { s with dec.emsg := e })
include hput hreport

theorem keeps_errChain (env : DecEnv) (errs : List DnsErr) : Keeps F (errChain env errs) := by
  induction errs with
  | nil => exact keeps_pure _
  | cons err rest ih =>
    exact (Keeps.of_ok fun s => ⟨_, _, snprintf_run (Nat.zero_le _) _ s, hput s _⟩).bind fun _ =>
      (keeps_dnsWmsg hreport env _).bind fun _ => ih

theorem keeps_dnsDecGenmsg (env : DecEnv) : Keeps F (dnsDecGenmsg env) := by
  have hline (p : Prop) [Decidable p] (text : Bytes) :
      Keeps F (when p do let _ ← dnsWmsg env text) :=
    keeps_when p fun _ => (keeps_dnsWmsg hreport env text).bind fun _ => keeps_pure _
  refine keeps_get.bind fun s => ?_
  split
  · exact (hline _ _).bind fun _ => keeps_pure _
  · exact (keeps_dnsWmsg hreport env _).bind fun _ => (hline _ _).bind fun _ =>
      (keeps_errChain hput hreport env _).bind fun _ =>
      (keeps_dnsWmsg hreport env _).bind fun _ => keeps_pure _

end ErrorReport

theorem straight_dnsDecGenmsg (env : DecEnv) : Keeps straightFrame (dnsDecGenmsg env) :=
  keeps_dnsDecGenmsg (fun _ _ => trivial) (fun _ _ => trivial) env

/-- `dns_validate` returns zero or minus one, when it returns. -/
theorem dnsValidate_codes (pkt : Bytes) (emsgLen : ℕ) :
    (∃ c, dnsValidate pkt emsgLen = .fault c) ∨
      ∃ c t, dnsValidate pkt emsgLen = .ok c t ∧ (c = 0 ∨ c = -1) := by
  unfold dnsValidate validateRun
  cases hmsg : decodeMsg (validateEnv pkt emsgLen) (initState (zeroMsg 0)) with
  | fault c => exact .inl ⟨c, bind_of_fault hmsg _⟩
  | exit e t => exact absurd hmsg (call_ne_exit _ _ _ _)
  | ok rc t =>
    rw [bind_of_ok hmsg]
    cases hgen : dnsDecGenmsg (validateEnv pkt emsgLen) t with
    | fault c => exact ((straight_dnsDecGenmsg _).fault hgen).elim
    | exit e u => exact ((straight_dnsDecGenmsg _).exit hgen).elim
    | ok ec u =>
      rw [bind_of_ok hgen]
      refine .inr ⟨_, u, rfl, ?_⟩
      have hrc := codes_decodeMsg _ _ _ _ hmsg
      rcases dnsDecGenmsg_ok hgen with ⟨-, rfl, -⟩ | ⟨-, rfl⟩
      · simpa using hrc
      · rcases hrc with rfl | rfl <;> simp

/-- `dns_validate` returns exactly when every record decode is defined. -/
theorem dnsValidate_returns_iff (pkt : Bytes) (emsgLen : ℕ) :
    (∃ c t, dnsValidate pkt emsgLen = .ok c t) ↔
      ∀ v ∈ recordVisits (validateEnv pkt emsgLen) (zeroMsg 0),
        Defined (validateEnv pkt emsgLen) v := by
  have hdef := validateRun_avoids (validateEnv pkt emsgLen) (zeroMsg 0) (fun _ => True)
  have hrec (v : Sect × DecState) := @dnsRrDecode_defined (validateEnv pkt emsgLen) rfl rfl v
  simp only [hrec] at hdef
  rw [← hdef]
  constructor
  · rintro ⟨c, t, h⟩
    exact avoids_of_ok h
  · intro h
    rcases dnsValidate_codes pkt emsgLen with ⟨c, hc⟩ | ⟨c, t, hc, -⟩
    · exact absurd trivial (h c hc)
    · exact ⟨c, t, hc⟩

/-- A packet that is accepted up to its last byte delimits itself exactly
when every record decode in its strict prefixes is defined. -/
theorem self_delimiting_iff (pkt : Bytes) (emsgLen : ℕ) (t : DecState)
    (h : dnsValidate pkt emsgLen = .ok 0 t) (hend : t.dec.offset = pkt.length) :
    ((∀ k < pkt.length, ∀ cap, ∃ c u, dnsValidate (pkt.take k) cap = .ok c u ∧ c < 0) ∧
      (∀ q, ∃ need, ∀ cap, need ≤ cap → ∃ u, dnsValidate (pkt ++ q) cap = .ok 0 u)) ↔
      ∀ k < pkt.length, ∀ cap, ∀ v ∈ recordVisits (validateEnv (pkt.take k) cap) (zeroMsg 0),
        Defined (validateEnv (pkt.take k) cap) v := by
  constructor
  · intro hp k hk cap
    obtain ⟨c, u, hc, -⟩ := hp.1 k hk cap
    exact (dnsValidate_returns_iff _ _).mp ⟨c, u, hc⟩
  · intro hdef
    constructor
    · intro k hk cap
      obtain ⟨c, u, hc⟩ := (dnsValidate_returns_iff _ _).mpr (hdef k hk cap)
      refine ⟨c, u, hc, ?_⟩
      rcases dnsValidate_codes (pkt.take k) cap with ⟨f, hf⟩ | ⟨c', u', hc', hcode⟩
      · rw [hc] at hf
        cases hf
      · rw [hc] at hc'
        cases hc'
        rcases hcode with rfl | rfl
        · exact absurd hc (no_accepted_strict_part h hend hk)
        · decide
    · intro q
      obtain ⟨need, hneed⟩ := accepted_append h q
      exact ⟨need, fun cap hcap => (hneed cap hcap).imp fun _ hu => hu.1⟩

/-- Two records of an unknown type. The RDATA of the first is a `SOA` record
with long names, which a decoder that lost the last bytes starts to decode. -/
def nestedPkt : Bytes :=
  responseHdr 2 0 0 ++ [0, 0, 99, 0, 1, 0, 0, 0, 0, 1, 149] ++
    (List.replicate 5 (63 :: List.replicate 63 97)).flatten ++ 48 :: List.replicate 48 97 ++
    [0, 0, 6, 0, 1, 0, 0, 0, 60, 0, 24, 0xc0, 23, 0xc0, 23] ++ List.replicate 20 255 ++ [0] ++
    [0, 0, 99, 0, 1, 0, 0, 0, 0, 0, 0]

theorem nested_not_self_delimiting : ∃ t, dnsValidate nestedPkt 4096 = .ok 0 t ∧
    t.dec.offset = nestedPkt.length ∧
    dnsValidate (nestedPkt.take 427) 4096 = .fault (.msgWrite 1136) ∧
    ¬ ∀ k < nestedPkt.length, ∀ cap, ∃ c u, dnsValidate (nestedPkt.take k) cap = .ok c u ∧
      c < 0 := by
  have hacc : (dnsValidate nestedPkt 4096).result.map
      (fun p => (p.1, p.2.dec.offset)) = some (0, nestedPkt.length) := by decide +kernel
  obtain ⟨c, t, h, hp⟩ := Outcome.eq_ok hacc
  simp only [Prod.mk.injEq] at hp
  obtain ⟨rfl, hoff⟩ := hp
  have hfault : dnsValidate (nestedPkt.take 427) 4096 = .fault (.msgWrite 1136) :=
    Outcome.eq_fault (by decide +kernel)
  refine ⟨t, h, hoff, hfault, fun hall => ?_⟩
  obtain ⟨c, u, hc, -⟩ := hall 427 (by decide +kernel) 4096
  rw [hfault] at hc
  cases hc

/-- The record types whose RDATA is read behind a check of its length and described at one
place of the buffer. -/
def isDirect : RrKind → Bool
  | .a | .aaaa | .ns | .cname | .ptr | .any | .other => true
  | _ => false

theorem fixedLen_direct (env : DecEnv) {h : RrHdr} (w : ℕ)
    (hk : isDirect (rrKind h.rrType) = true) :
    fixedLen env h w = 0 ∨ fixedLen env h w ≤ h.rdlen.toNat ∧ h.rdlen.toNat ≤ 16 := by
  unfold fixedLen
  cases hkind : rrKind h.rrType with
  | a =>
    dsimp only
    split
    · next hfour => exact .inr ⟨hfour.1.ge, by omega⟩
    · exact .inl rfl
  | aaaa =>
    dsimp only
    split
    · next hsixteen =>
      refine .inr ⟨?_, hsixteen.le⟩
      split_ifs <;> omega
    · exact .inl rfl
  | ns => exact .inl rfl
  | cname => exact .inl rfl
  | ptr => exact .inl rfl
  | any => exact .inl rfl
  | other => exact .inl rfl
  | _ => simp [hkind, isDirect] at hk

theorem pieces_direct (pkt : Bytes) {h : RrHdr} (start rdEnd : ℕ)
    (hk : isDirect (rrKind h.rrType) = true) : pieces pkt h start rdEnd = [] := by
  unfold pieces
  cases hkind : rrKind h.rrType with
  | soa | hinfo | mx | txt | srv => simp [hkind, isDirect] at hk
  | _ => rfl

/-- A packet none of whose bytes are the type of another record. -/
theorem defined_of_direct {pkt : Bytes} (emsgLen : ℕ) (hlen : pkt.length+26 ≤ 2^16)
    (hkinds : ∀ e, e+10 ≤ pkt.length → isDirect (rrKind (hdrAt pkt e).rrType) = true)
    (v : Sect × DecState) : Defined (validateEnv pkt emsgLen) v := by
  constructor
  · intro text e h
    have hhdr : e+10 ≤ pkt.length := h.hdr
    have hrdata : (e+10+(hdrAt pkt e).rdlen.toNat) % 2^16 ≤ pkt.length := h.rdata
    have hfixed := fixedLen_direct (validateEnv pkt emsgLen) ((shown text).length+1) (hkinds e hhdr)
    change e+10+fixedLen _ (hdrAt pkt e) _ ≤ pkt.length
    omega
  · intro text e h _
    change Fits pkt _ (pieces pkt (hdrAt pkt e) (e+10) (rdEndAt pkt e))
    rw [pieces_direct pkt _ _ (hkinds e h.hdr)]
    trivial
  · intro text e h
    have hdirect : isDirect (rrKind (hdrAt (validateEnv pkt emsgLen).pkt e).rrType) = true :=
      hkinds e h.hdr
    split
    · next hkind =>
      rw [hkind] at hdirect
      cases hdirect
    · next hkind =>
      rw [hkind] at hdirect
      cases hdirect
    · trivial

def addressPkt : Bytes := [0x12, 0x34, 0x81, 0x80, 0, 1, 0, 1, 0, 1, 0, 0] ++
  [1, 97, 0, 0, 1, 0, 1] ++ [0xc0, 12, 0, 1, 0, 1, 0, 0, 0, 0, 0, 4, 127, 0, 0, 1] ++
  [0xc0, 12, 0, 2, 0, 1, 0, 0, 0, 0, 0, 2, 0xc0, 12]

theorem addressPkt_direct (e : ℕ) (he : e+10 ≤ addressPkt.length) :
    isDirect (rrKind (hdrAt addressPkt e).rrType) = true := by
  have hkinds : ∀ e < 40, isDirect (rrKind (hdrAt addressPkt e).rrType) = true := by decide
  exact hkinds e (by change e+10 ≤ 49 at he; omega)

theorem address_delimits_itself :
    (∀ k < addressPkt.length, ∀ cap, ∃ c u,
      dnsValidate (addressPkt.take k) cap = .ok c u ∧ c < 0) ∧
    ∀ q, ∃ need, ∀ cap, need ≤ cap → ∃ u, dnsValidate (addressPkt ++ q) cap = .ok 0 u := by
  have hacc : (dnsValidate addressPkt 1000).result.map
      (fun p => (p.1, p.2.dec.offset)) = some (0, addressPkt.length) := by decide +kernel
  obtain ⟨c, t, h, hp⟩ := Outcome.eq_ok hacc
  simp only [Prod.mk.injEq] at hp
  obtain ⟨rfl, hoff⟩ := hp
  have hlen : addressPkt.length = 49 := rfl
  refine (self_delimiting_iff addressPkt 1000 t h hoff).mpr fun k hk cap v _ => ?_
  have hcut : (addressPkt.take k).length = k := List.length_take_of_le hk.le
  refine defined_of_direct cap (by omega) (fun e he => ?_) v
  have hsame : hdrAt addressPkt e = hdrAt (addressPkt.take k) e := by
    unfold hdrAt
    rw [slice_extend (List.take_prefix k addressPkt) e 10 he]
  rw [← hsame]
  exact addressPkt_direct e (by omega)

end DnsPkt.SelfDelimiting
