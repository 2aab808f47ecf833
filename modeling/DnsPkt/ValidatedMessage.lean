import DnsPkt.MessageLayout
import DnsPkt.ReportedRecord
import DnsPkt.WrittenRecord

/-!
# The validator on encoded messages

A message of address and name records, with names of at most sixteen labels,
is encoded into a packet that the validator accepts. Each name is behind as
many pointers as it has labels at most, each record is reported, and the
sections follow one another as the encoder wrote them.
-/

set_option autoImplicit false

namespace DnsPkt.ValidatedMessage
open DnsPkt.CheckedRun DnsPkt.CheckedRun.Run DnsPkt.Octets DnsPkt.Protocol
open DnsPkt.MessageStore DnsPkt.NameCompression DnsPkt.PacketWriter DnsPkt.MessageBuild
open DnsPkt.MessageEncoder DnsPkt.EncodedMessage DnsPkt.MessageLayout DnsPkt.WrittenRecord
open DnsPkt.RecordDecoder DnsPkt.MessageDecoder DnsPkt.RecordRun DnsPkt.AcceptedRun
open DnsPkt.SelfDelimiting DnsPkt.RecordView DnsPkt.ReportedRecord

theorem nameWritten_length {st : NameStore} {p : Ptr} {text : Bytes} (h : NameWritten st p text) :
    text.length ≤ 253 := by
  obtain ⟨ls, ls', hn, hs, rfl⟩ := h
  have hle : (dotted ls).length ≤ 253 := hn.le
  unfold shown
  split_ifs
  · decide
  · rw [length_dotted_same hs]
    exact hle

theorem written_short {st : NameStore} {rr : DnsRr Ptr} {v : RrView} (h : WrittenView st rr v)
    (hk : Plain (rrKind rr.rrType)) : ∀ x ∈ v.rdata.strs, x.length ≤ 253 := by
  obtain ⟨ns, ss, hstrs, hns, hss⟩ := h.rdata.strs
  have hnone : rdStrs rr.rrType rr.rdata = [] := by
    unfold rdStrs
    split <;> simp_all [Plain]
  rw [hnone, List.forall₂_nil_left_iff] at hss
  rw [hstrs, hss, List.append_nil]
  intro x hx
  obtain ⟨p, -, hp⟩ := forall₂_right hns x hx
  exact nameWritten_length hp

theorem layout_labels {N : List Bytes → Prop} (hN : ∀ ls, N ls → ls.length ≤ 16) {st : NameStore}
    {rr : DnsRr Ptr} {r : Record} (h : RecordLayout N st rr r) (len : Bytes) :
    ∀ ls, .name ls ∈ r.parts len → ls.length ≤ dnsMaxJmp+1 := by
  have hle {ls : List Bytes} (h : N ls ∨ ls = []) : ls.length ≤ dnsMaxJmp+1 := by
    rcases h with h | rfl
    · exact (hN ls h).trans (by decide)
    · exact Nat.zero_le _
  intro ls hls
  simp only [Record.parts, List.mem_cons, Part.name.injEq, reduceCtorEq, false_or] at hls
  rcases hls with rfl | hls
  · exact hle h.names.1
  · exact hle (h.names.2 _ hls)

section Sections

variable {N : List Bytes → Prop} (hN : ∀ ls, N ls → ls.length ≤ 16) {st : NameStore} {pkt : Bytes}

include hN in
theorem records_settle (sc : Sect) {rrs : List (DnsRr Ptr)} {rs : List Record}
    (hrs : List.Forall₂ (RecordLayout N st) rrs rs) (hk : ∀ rr ∈ rrs, Plain (rrKind rr.rrType))
    (hg : ∀ r ∈ rs, r.Good) {w : Writer} (hw : w.Sound 12)
    (hlow : (records dnsMaxSuffix w rs).pkt.length ≤ 2^14)
    (hb : (records dnsMaxSuffix w rs).pkt <+: pkt) {s : DecState}
    (hs : s.dec.offset = w.pkt.length) (i : ℕ) :
    ∃ t, Settles pkt (fun env => loop (rowStep (dnsRrDecode env sc) (Sect.loc sc)) i rs.length) s
        () t ∧ t.dec.offset = (records dnsMaxSuffix w rs).pkt.length ∧ t.dec.errs = s.dec.errs ∧
      t.msg.hdr = s.msg.hdr := by
  induction hrs generalizing w s i with
  | nil => exact ⟨s, settles_always fun _ => rfl, hs, rfl, rfl⟩
  | @cons rr r rrs rs hr _ ih =>
    have hgrow := records_grow dnsMaxSuffix (record dnsMaxSuffix w r) rs
    have hgood := hg r (by simp)
    have hkind := hk rr (by simp)
    have hlow1 : (record dnsMaxSuffix w r).pkt.length ≤ 2^14 := hgrow.length_le.trans hlow
    have hparts : ∀ p ∈ r.parts (encU16 (UInt16.ofNat (dataLen dnsMaxSuffix w r))), p.Good := by
      intro p hp
      simp only [Record.parts, List.mem_cons] at hp
      rcases hp with rfl | rfl | hp
      · exact hgood.1
      · trivial
      · exact hgood.2 p hp
    obtain ⟨v, hat, hv⟩ := record_written hr.written
      (by intro p hp; unfold rdStrs at hp; split at hp <;> simp_all [Plain]) hw hlow1 hgood
      (shallow_of_labels hw hlow1 hparts (layout_labels hN hr _)) (hgrow.trans hb)
    rw [← hs] at hat
    obtain ⟨t, ht, hoff, herrs, hhdr⟩ := record_settles sc hat (by omega)
      (by rw [hv.rrType]; exact hkind) (nameWritten_length hv.name) (written_short hv hkind)
    obtain ⟨u, hu, huoff, huerrs, huhdr⟩ := ih (fun x hx => hk x (by simp [hx]))
      (fun x hx => hg x (by simp [hx])) (sound_record hw hgood hlow1) hlow hb hoff (i+1)
    exact ⟨u, (settles_rowStep ht (Sect.loc sc) i).bind
      (f := fun env _ => loop (rowStep (dnsRrDecode env sc) (Sect.loc sc)) (i+1) rs.length) hu,
      huoff, huerrs.trans herrs, huhdr.trans hhdr⟩

end Sections

/-- Header flags that the validator has no objection to. -/
def GoodFlags (flags : UInt16) : Prop := opcode flags ∈ [0, 1, 2, 4, 5] ∧ rcode flags ≤ 10

theorem checkFlags_good {flags : UInt16} (h : GoodFlags flags) (s : DecState) :
    checkFlags flags s = .ok () s := by
  obtain ⟨hop, hrc⟩ := h
  have hbad : ¬ badOpcode flags = true := by
    simp only [List.mem_cons, List.not_mem_nil, or_false] at hop
    simp only [badOpcode, decide_eq_true_eq]
    omega
  have hbad' : ¬ badRcode flags = true := by
    simp only [badRcode, decide_eq_true_eq]
    omega
  unfold checkFlags
  split
  · rw [when_neg hbad']
    rfl
  · rw [when_neg hbad]
    rfl

theorem header_settles {hdr : DnsHdr} {pkt : Bytes} (h : hdrBytes hdr <+: pkt)
    (hf : GoodFlags hdr.flags) (s : DecState) :
    ∃ t, Settles pkt decodeHdr s 0 t ∧ t.dec.offset = s.dec.offset+12 ∧ t.dec.errs = s.dec.errs ∧
      t.msg.hdr = hdr := by
  have hlen : 12 ≤ pkt.length := h.length_le
  refine ⟨told (hdrState pkt s) (hdrLine (hdrOf pkt)), settles_call (settles_line fun cap => ?_),
    rfl, rfl, hdrOf_written h⟩
  rw [hdrBody_run rfl hlen]
  have hok : checkFlags (hdrOf pkt).flags (hdrState pkt s) = .ok () (hdrState pkt s) := by
    rw [hdrOf_written h]
    exact checkFlags_good hf _
  exact bind_of_ok hok _

theorem sectCount_sync (m : DnsMsg) (sc : Sect) :
    sectCount (syncHdr m) sc = (MessageSlots.records m sc).length := by
  have hcount : (UInt16.ofNat (m.sect sc).count).toNat = (m.sect sc).count := by
    have := (m.sect sc).fits
    rw [UInt16.toNat_ofNat', show (dnsMaxRr : ℕ) = 32 from rfl] at *
    omega
  have hlen : (MessageSlots.records m sc).length = (m.sect sc).count := by
    rw [MessageSlots.records, List.length_take, (m.sect sc).size]
    exact Nat.min_eq_left (m.sect sc).fits
  rw [hlen, ← hcount]
  cases sc <;> simp [sectCount, syncHdr, DnsMsg.sect]

theorem qdCount_sync (m : DnsMsg) : (syncHdr m).qdCount.toNat = m.qdLen := by
  have := m.qd_fits
  simp only [syncHdr, UInt16.toNat_ofNat', show (dnsMaxQd : ℕ) = 1 from rfl] at *
  omega

theorem sect_settles {pkt : Bytes} (sc : Sect) {n : ℕ} {s t : DecState}
    (hn : sectCount s.msg.hdr sc = n)
    (h : Settles pkt (fun env => loop (rowStep (dnsRrDecode env sc) (Sect.loc sc)) 0 n) s () t) :
    Settles pkt (fun env => orReturn (decodeSect env sc)) s () t := by
  refine settles_orReturn ?_
  subst hn
  exact settles_rows h

theorem qd_settles {pkt : Bytes} {n : ℕ} {s t : DecState} (hn : s.msg.hdr.qdCount.toNat = n)
    (h : Settles pkt (fun env => loop (rowStep (dnsQdDecode env) .qd) 0 n) s () t) :
    Settles pkt (fun env => orReturn (decodeQd env)) s () t := by
  refine settles_orReturn ?_
  subst hn
  exact settles_rows h

theorem question_settle {pkt : Bytes} {m : DnsMsg} {q : List Part} (hq : QuestParts m q)
    {w : Writer} (hw : w.Sound 12) (hlow : (parts dnsMaxSuffix w q).pkt.length ≤ 2^14)
    (hg : ∀ p ∈ q, p.Good) (hsh : Shallow dnsMaxSuffix (dnsMaxJmp+1) w q)
    (hb : (parts dnsMaxSuffix w q).pkt <+: pkt) {s : DecState} (hs : s.dec.offset = w.pkt.length)
    (hhdr : s.msg.hdr.qdCount.toNat = m.qdLen) :
    ∃ t, Settles pkt (fun env => orReturn (decodeQd env)) s () t ∧
      t.dec.offset = (parts dnsMaxSuffix w q).pkt.length ∧ t.dec.errs = s.dec.errs ∧
      t.msg = s.msg := by
  by_cases h1 : m.qdLen = 1
  · obtain ⟨ls, ls', hn, hsame, hat⟩ := question_written hq h1 hw hlow hg hsh hb
    have hle : (dotted ls').length ≤ 253 := (length_dotted_same hsame).trans_le hn.le
    rw [← hs] at hat
    obtain ⟨t, ht, hoff, herrs, hmsg⟩ := question_settles hat hle
    have hloop : Settles pkt (fun env => loop (rowStep (dnsQdDecode env) .qd) 0 1) s () t :=
      (settles_rowStep ht .qd 0).bind (f := fun env _ => loop (rowStep (dnsQdDecode env) .qd) 1 0)
        (settles_always fun _ => rfl)
    exact ⟨t, qd_settles (hhdr.trans h1) hloop, hoff, herrs, hmsg⟩
  · rw [QuestParts, if_neg h1] at hq
    subst hq
    have hzero : s.msg.hdr.qdCount.toNat = 0 := by
      have hfits : m.qdLen ≤ 1 := m.qd_fits
      omega
    exact ⟨s, qd_settles hzero (settles_always fun _ => rfl), hs, rfl, rfl⟩

theorem sizeCheck_settles (pkt : Bytes) (s : DecState) : ∃ t, Settles pkt sizeCheck s 0 t ∧
    t.dec.errs = s.dec.errs := by
  by_cases h : s.dec.udpSize < pkt.length
  · refine ⟨told s (sizeLine pkt.length s.dec.udpSize), settles_line fun cap => ?_, rfl⟩
    rw [sizeCheck, bind_of_ok (get_run s)]
    exact congrFun (if_pos ⟨rfl, h⟩) s
  · refine ⟨s, settles_always fun cap => ?_, rfl⟩
    rw [sizeCheck, bind_of_ok (get_run s)]
    exact congrFun (if_neg fun hc => h hc.2) s

/-- With a large enough report buffer the validator accepts a packet whose
three parts settle without an error. -/
theorem validate_settles {pkt : Bytes} {s1 s2 : DecState}
    (hfront : Settles pkt decodeFront (initState (zeroMsg 0)) () s1)
    (hsects : Settles pkt (fun env => decodeSects env [.an, .ns, .ar]) s1 () s2)
    (herrs : s2.dec.errs = []) :
    ∃ need, ∀ cap, need ≤ cap → ∃ u, dnsValidate pkt cap = .ok 0 u := by
  obtain ⟨s3, hsize, herrs3⟩ := sizeCheck_settles pkt s2
  obtain ⟨n1, h1⟩ := hfront
  obtain ⟨n2, h2⟩ := hsects
  obtain ⟨n3, h3⟩ := hsize
  refine ⟨n1+n2+n3, fun cap hcap => ?_⟩
  obtain ⟨u, hu, -⟩ := validateRun_of_parts (h1 cap (by omega)) (h2 cap (by omega))
    (h3 cap (by omega)) (herrs3.trans herrs)
  exact ⟨u, hu⟩

/-- The validator accepts what the encoder wrote for a message of plain
records with names of at most sixteen labels. -/
theorem encoded_message_accepted {m : DnsMsg}
    (hm : Built (fun ls => ls.length ≤ 16) Plain (fun _ => True) m) (hf : GoodFlags m.hdr.flags)
    {buf : Bytes} {n : ℤ} {t : NameEncoder.DnsEnc} (henc : dnsMsgEncode m buf = .ok n t)
    (hn : 0 ≤ n) :
    ∃ need, ∀ cap, need ≤ cap → ∃ u, dnsValidate (t.pktBuf.take n.toNat) cap = .ok 0 u := by
  obtain ⟨hok, -⟩ := hm.ok (.inl fun k hk => by rintro rfl; exact hk)
  have hpart (sc : Sect) (rr : DnsRr Ptr) (hr : rr ∈ MessageSlots.records m sc) :
      Partwise m.store rr := by
    have hk := (hok.slots sc rr hr).2
    unfold Partwise
    split <;> simp_all [Plain]
  obtain ⟨q, rs, hlay⟩ := message_layout hok hpart
  obtain ⟨hg, hpkt⟩ := dnsMsgEncode_ok hlay.laid henc hn
  have hkind (sc : Sect) : ∀ rr ∈ MessageSlots.records m sc, Plain (rrKind rr.rrType) :=
    fun rr hr => (hok.slots sc rr hr).2
  have hcount (sc : Sect) : sectCount (syncHdr m) sc = (rs sc).length :=
    (sectCount_sync m sc).trans (hlay.sects sc).length_eq
  rw [hpkt]
  clear hpkt henc
  obtain ⟨w1, w2, w3, hst⟩ := layout_stages hok hlay hg
  obtain rfl := hst.front
  obtain rfl := hst.an
  obtain rfl := hst.ns
  have hsh : Shallow dnsMaxSuffix (dnsMaxJmp+1) ⟨hdrBytes (syncHdr m), []⟩ q :=
    shallow_of_labels hst.sound hst.low1 hg.1 fun ls hls =>
      (hlay.quest.names _ hls : ls.length ≤ 16).trans (by decide)
  obtain ⟨t0, h0, hoff0, herrs0, hhdr0⟩ := header_settles hst.grow0 hf
    (initState (dnsMsgReset (zeroMsg 0)))
  obtain ⟨t1, h1, hoff1, herrs1, hmsg1⟩ := question_settle hlay.quest.parts hst.sound
    hst.low1 hg.1 hsh hst.grow1 hoff0 (by rw [hhdr0]; exact qdCount_sync m)
  obtain ⟨t2, h2, hoff2, herrs2, hhdr2⟩ := records_settle (fun _ h => h) .an (hlay.sects .an)
    (hkind .an) (hg.2 .an) hst.sound1 hst.low2 hst.grow2 hoff1 0
  obtain ⟨t3, h3, hoff3, herrs3, hhdr3⟩ := records_settle (fun _ h => h) .ns (hlay.sects .ns)
    (hkind .ns) (hg.2 .ns) hst.sound2 hst.low3 hst.grow3 hoff2 0
  obtain ⟨t4, h4, -, herrs4, -⟩ := records_settle (fun _ h => h) .ar (hlay.sects .ar)
    (hkind .ar) (hg.2 .ar) hst.sound3 hst.low (List.prefix_refl _) hoff3 0
  have hdr1 : t1.msg.hdr = syncHdr m := by rw [hmsg1, hhdr0]
  have hfront : Settles (messageWriter (hdrBytes (syncHdr m)) q rs).pkt decodeFront
    (initState (zeroMsg 0)) () t1 :=
    Settles.bind (f := fun env _ => orReturn (decodeHdr env) >>= fun _ => orReturn (decodeQd env))
      (settles_always fun _ => modify_run _ _)
      (Settles.bind (f := fun env _ => orReturn (decodeQd env)) (settles_orReturn h0) h1)
  have c2 : sectCount t1.msg.hdr .an = (rs .an).length := by rw [hdr1, hcount]
  have c3 : sectCount t2.msg.hdr .ns = (rs .ns).length := by rw [hhdr2, hdr1, hcount]
  have c4 : sectCount t3.msg.hdr .ar = (rs .ar).length := by rw [hhdr3, hhdr2, hdr1, hcount]
  have hsects : Settles (messageWriter (hdrBytes (syncHdr m)) q rs).pkt
    (fun env => decodeSects env [.an, .ns, .ar]) t1 () t4 :=
    Settles.bind (f := fun env _ => decodeSects env [.ns, .ar]) (sect_settles .an c2 h2)
      (Settles.bind (f := fun env _ => decodeSects env [.ar]) (sect_settles .ns c3 h3)
        (Settles.bind (f := fun env _ => decodeSects env []) (sect_settles .ar c4 h4)
          (settles_always fun _ => rfl)))
  refine validate_settles hfront hsects ?_
  rw [herrs4, herrs3, herrs2, herrs1, herrs0]
  rfl

def addressReply : DnsMsg :=
  let name : Str := some ⟨[97, 46, 98], by decide⟩
  let m := (dnsAddQd (dnsMsgInit (zeroMsg 0) 0x1234 0x8180) name 1 1).2
  (dnsAddRr m 1 (some { zeroRr none with name := name, rrType := 1, rrClass := 1, ttl := 60 })).2

theorem address_reply_accepted : ∃ n t, dnsMsgEncode addressReply (List.replicate 600 0) = .ok n t ∧
    n = 37 ∧ ∃ need, ∀ cap, need ≤ cap →
      ∃ u, dnsValidate (t.pktBuf.take n.toNat) cap = .ok 0 u := by
  have hrun : (dnsMsgEncode addressReply (List.replicate 600 0)).result.map (fun p => p.1) =
      some 37 := by decide +kernel
  obtain ⟨n, t, henc, rfl⟩ := Outcome.eq_ok hrun
  have hname : NameText (fun ls => ls.length ≤ 16) [97, 46, 98] :=
    ⟨[[97], [98]], by decide, by simpa using
      ⟨⟨by decide, by decide, by decide⟩, ⟨by decide, by decide, by decide⟩⟩, by decide⟩
  refine ⟨_, t, henc, rfl, encoded_message_accepted ?_ ⟨by decide +kernel, by decide +kernel⟩ henc
    (by decide)⟩
  exact ((Built.zero 0).init 0x1234 0x8180).addQd _ 1 1 hname trivial
    |>.addRr 1 _ trivial hname (by simp [rdNames, rrKind]) trivial

end DnsPkt.ValidatedMessage
