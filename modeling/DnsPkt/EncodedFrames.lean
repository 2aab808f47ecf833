import DnsPkt.MessageHistory
import DnsPkt.RecordTrace
import DnsPkt.ValidatedMessage

/-!
# The frames of an encoded message

A walk that knows nothing of record types goes over the output of the
encoder: the header, each question and each record, skipped by their names
and lengths. It ends where the encoder stopped, for records of all types,
though some of them are not filled as their length says.
-/

set_option autoImplicit false

namespace DnsPkt.EncodedFrames
open DnsPkt.CheckedRun DnsPkt.CheckedRun.Run DnsPkt.Octets DnsPkt.Protocol
open DnsPkt.MessageStore DnsPkt.MessageSlots DnsPkt.MessageBuild DnsPkt.MessageDecoder
open DnsPkt.NameDecoder DnsPkt.NameEncoder DnsPkt.MessageEncoder DnsPkt.EncodedMessage
open DnsPkt.WriteTrace DnsPkt.EncoderTrace DnsPkt.RecordTrace DnsPkt.MessageHistory
open DnsPkt.AcceptedRun DnsPkt.WrittenRecord DnsPkt.ValidatedMessage

/-- The walk over a packet: where its last entry ends, if no entry leaves the packet. -/
def walk (b : Bytes) : Option ℕ :=
  if b.length < dnsHdrLen then none
  else
    let hdr := dnsHdrDecode (slice b 0 dnsHdrLen)
    (skipEach (skipQuestion b) hdr.qdCount.toNat dnsHdrLen).bind
      (skipEach (skipRecord b) (hdr.anCount.toNat+(hdr.nsCount.toNat+hdr.arCount.toNat)))

theorem allRecords_length (m : DnsMsg) : (syncHdr m).anCount.toNat+((syncHdr m).nsCount.toNat+
    (syncHdr m).arCount.toNat) = (allRecords m).length := by
  have h1 := sectCount_sync m .an
  have h2 := sectCount_sync m .ns
  have h3 := sectCount_sync m .ar
  simp only [sectCount] at h1 h2 h3
  rw [h1, h2, h3, allRecords, List.length_append, List.length_append]

theorem Framed.walk {m : DnsMsg} {n : ℕ} {b : Bytes} (h : Framed m n b) : walk b = some n := by
  obtain ⟨hhdr, mid, hq, hr⟩ := h
  have hlen : dnsHdrLen ≤ b.length := by
    have h12 : (slice b 0 dnsHdrLen).length = dnsHdrLen := by
      rw [hhdr]
      rfl
    rw [slice, List.length_take, List.drop_zero] at h12
    omega
  have hsync : dnsHdrDecode (slice b 0 dnsHdrLen) = syncHdr m := by
    have hpre : hdrBytes (syncHdr m) <+: b := by
      rw [← hhdr, slice, List.drop_zero]
      exact List.take_prefix _ _
    exact hdrOf_written hpre
  rw [EncodedFrames.walk, if_neg (by omega), hsync]
  simp only [qdCount_sync, hq, Option.bind_some, allRecords_length, hr]

variable {N : List Bytes → Prop} {K : RrKind → Prop} {C : ℤ → Prop}

theorem edits_built {m : DnsMsg} (h : Built N K C m) : ∃ base, Edits (zeroMsg base) m := by
  induction h with
  | zero base => exact ⟨base, .refl _⟩
  | init h id flags ih =>
    obtain ⟨base, ih⟩ := ih
    exact ⟨base, ih.trans (Edit.header _).edits⟩
  | addQd h qname qtype qclass hq hc ih =>
    obtain ⟨base, ih⟩ := ih
    exact ⟨base, ih.trans (edits_dnsAddQdn _ _ _ _)⟩
  | addRr h sc src hk hn hr hc ih =>
    obtain ⟨base, ih⟩ := ih
    exact ⟨base, ih.trans (edits_dnsAddRr _ _ _)⟩

theorem encodable_built {m : DnsMsg} (h : Built N K C m) : Encodable m := by
  obtain ⟨base, hedits⟩ := edits_built h
  exact hedits.invariant encodable_edit (encodable_zero base)

/-- The question and every counted record show a name that was stored for them. -/
structure Named (N : List Bytes → Prop) (m : DnsMsg) : Prop where
  qd : m.qdLen = 1 → Shown (NameText N) m.store m.qd.qname
  owners : ∀ sc, ∀ r ∈ records m sc, Shown (NameText N) m.store r.name

theorem Named.later {m t : DnsMsg} (h : Named N m) (hst : Later m.store t.store)
    (hqd : t.qdLen = m.qdLen ∧ t.qd = m.qd) (hrec : ∀ sc, records t sc = records m sc) :
    Named N t := by
  refine ⟨fun h1 => ?_, fun sc r hr => ?_⟩
  · rw [hqd.1] at h1
    rw [hqd.2]
    exact (h.qd h1).later hst
  · rw [hrec] at hr
    exact (h.owners sc r hr).later hst

theorem Named.push {m : DnsMsg} (h : Named N m) {sc : Sect} {st : NameStore} {r : DnsRr Ptr}
    (hcount : (m.sect sc).count < dnsMaxRr) (hst : Later m.store st)
    (hr : Shown (NameText N) st r.name) : Named N ((stage m sc st r).countUp sc) := by
  have hstage : Named N (stage m sc st r) := h.later (by rw [stage_store]; exact hst)
    ⟨stage_qdLen m sc st r, stage_qd m sc st r⟩ (records_stage st r)
  refine ⟨fun h1 => ?_, fun sc' x hx => ?_⟩
  · rw [(countUp_qd _ _).2] at h1
    rw [(countUp_qd _ _).1, countUp_store]
    exact hstage.qd h1
  · rw [countUp_store]
    by_cases hsc : sc' = sc
    · subst hsc
      rw [countUp_records st r hcount] at hx
      rcases List.mem_append.mp hx with hx | hx
      · exact hstage.owners sc' x (by rwa [records_stage])
      · obtain rfl := List.mem_singleton.mp hx
        rw [stage_store]
        exact hr
    · rw [countUp_records_ne hsc] at hx
      exact hstage.owners sc' x hx

theorem Named.addQd {m : DnsMsg} (h : Named N m) (qname : Str) (qtype qclass : UInt16)
    (hq : NameText N qname.bytes) : Named N (dnsAddQd m qname qtype qclass).2 := by
  unfold dnsAddQd dnsAddQdn
  split
  · next hlt =>
    cases hs : msgStoreStr m.store qname.bytes with
    | none =>
      refine ⟨fun h1 => ?_, fun sc r hr => h.owners sc r (by cases sc <;> exact hr)⟩
      have hone : m.qdLen = 1 := h1
      have hle : m.qdLen+1 ≤ 1 := hlt
      omega
    | some q =>
      have hputs : Puts m.store qname.bytes (.ref q.1) q.2 := .inl ⟨q.1, hs, rfl⟩
      have hshown := (hputs.shown hq (zero_notMem_bytes qname)).1.resolve_left (by simp)
      refine ⟨fun _ => hshown, fun sc r hr => (h.owners sc r ?_).later hputs.later⟩
      cases sc <;> exact hr
  · exact h

theorem named_built {m : DnsMsg} (h : Built N K C m) : Named N m := by
  induction h with
  | zero base =>
    refine ⟨fun h => (by cases h), fun sc r hr => ?_⟩
    cases sc <;> simp [records, zeroMsg, DnsMsg.sect, zeroSect] at hr
  | init h id flags ih =>
    exact ih.later (.refl _) ⟨rfl, rfl⟩ fun sc => by cases sc <;> rfl
  | addQd h qname qtype qclass hq hc ih => exact ih.addQd qname qtype qclass hq
  | @addRr m h sc src hk hn hr hc ih =>
    have hsized := (encodable_built h).sized
    unfold dnsAddRr
    cases sectOfCode sc with
    | none => exact ih
    | some sect =>
      dsimp only
      cases hrun : dnsSectAddRr sect src m with
      | fault c => exact c.elim
      | exit rc t =>
        obtain ⟨-, st, r, hst, rfl⟩ := dnsSectAddRr_exit hrun
        exact ih.later (by simpa [returned] using hst)
          ⟨by simp [returned], by simp [returned]⟩ fun sc => by simp [returned]
      | ok rc t =>
        obtain ⟨hcount, st, r, hst, rfl, hshown⟩ :=
          dnsSectAddRr_named hn hr (sized_slot hsized sect) hrun
        exact ih.push hcount hst hshown

theorem labelled_of_shown {st : NameStore} {p : Ptr} (h : Shown (NameText N) st p) :
    Labelled ((st.str p).getD []) := by
  obtain ⟨str, ⟨ls, -, hls, rfl⟩, -, -, hstr⟩ := h.str
  rw [hstr]
  exact ⟨ls, trivial, hls, rfl⟩

theorem walkable_built {m : DnsMsg} (h : Built N K C m) : Walkable m := by
  have hnamed := named_built h
  refine ⟨fun h1 => labelled_of_shown (hnamed.qd h1), fun rr hrr => ?_⟩
  simp only [allRecords, List.mem_append] at hrr
  rcases hrr with hrr | hrr | hrr
  · exact labelled_of_shown (hnamed.owners .an rr hrr)
  · exact labelled_of_shown (hnamed.owners .ns rr hrr)
  · exact labelled_of_shown (hnamed.owners .ar rr hrr)

def EncFault (c : Fault) : Prop := c = .wildRead ∨ ∃ i, c = .bufWrite i

theorem sized_allRecords {m : DnsMsg} (h : Sized m) :
    ∀ rr ∈ allRecords m, rr.rdata.txtStr.length = dnsMaxTxt := by
  intro rr hrr
  simp only [allRecords, List.mem_append] at hrr
  rcases hrr with hrr | hrr | hrr
  · exact h .an rr (List.mem_of_mem_take hrr)
  · exact h .ns rr (List.mem_of_mem_take hrr)
  · exact h .ar rr (List.mem_of_mem_take hrr)

theorem traced_encodeMsg {m : DnsMsg} (hm : Encodable m) (buf : Bytes) :
    Emits EncFault (encodeMsg m) (initEnc buf) fun _ ws t =>
      Segment (∀ rr ∈ allRecords m, Gapless m.store rr) (initEnc buf) ws t ∧
        (Walkable m → Shows (Framed m t.pktLen) (initEnc buf) ws t) :=
  emits_encodeMsg (.inl rfl) (fun i => .inr ⟨i, rfl⟩) hm.tame (sized_allRecords hm.sized) _ rfl

/-- An encoding that succeeds returned the length of the packet. -/
theorem dnsMsgEncode_run {m : DnsMsg} {buf : Bytes} {t : DnsEnc} {n : ℤ}
    (hrun : dnsMsgEncode m buf = .ok n t) (hn : 0 ≤ n) :
    encodeMsg m (initEnc buf) = .ok () t ∧ n = t.pktLen := by
  rcases (call_ok _ _ _ _).mp hrun with h | h
  · obtain ⟨_, s, hs, h⟩ := (bind_ok _ _ _ _ _).mp h
    rw [bind_of_ok (get_run s)] at h
    cases h
    exact ⟨hs, rfl⟩
  · have hc : n = -1 := ((fails_encodeMsg m).bind fun _ => keeps_get.bind fun s =>
      keeps_pure (s.pktLen : ℤ)).exit h
    omega

/-- The packet begins with the header and the counts of the message. -/
theorem encoded_header {m : DnsMsg} (hm : Encodable m) {buf : Bytes} {t : DnsEnc} {n : ℤ}
    (hrun : dnsMsgEncode m buf = .ok n t) (hn : 0 ≤ n) :
    hdrBytes (syncHdr m) <+: t.pktBuf.take n.toNat := by
  obtain ⟨henc, rfl⟩ := dnsMsgEncode_run hrun hn
  rw [encodeMsg_eq] at henc
  obtain ⟨_, s1, h1, henc⟩ := (bind_ok _ _ _ _ _).mp henc
  obtain ⟨_, s2, h2, h3⟩ := (bind_ok _ _ _ _ _).mp henc
  obtain ⟨ws1, hw1, hbuf1, happ, -⟩ := (emits_dnsEncMem (F := EncFault)).of_ok h1
  have hlen1 : s1.pktBuf.length = buf.length :=
    (congrArg List.length hbuf1).trans (length_writes hw1)
  have hfits1 := (segment_of_appended happ).fits
  obtain ⟨ws2, hw2, hbuf2, ⟨hseg2, -⟩, -⟩ :=
    (emits_encodeQd (F := EncFault) (.inl rfl) hm.tame s1 (hlen1 ▸ hfits1)).of_ok h2
  have hlen2 : s2.pktBuf.length = s1.pktBuf.length :=
    (congrArg List.length hbuf2).trans (length_writes hw2)
  obtain ⟨ws3, hw3, hbuf3, ⟨hseg3, -⟩, -⟩ := (emits_encRecords (F := EncFault) (.inl rfl)
    (fun i => .inr ⟨i, rfl⟩) hm.tame _ (sized_allRecords hm.sized) s2 (hlen2 ▸ hseg2.fits)).of_ok h3
  have hs1 : s1.pktLen = dnsHdrLen := by
    rw [happ.len]
    rfl
  have hgrow : s1.pktLen ≤ t.pktLen := hseg2.grow.trans hseg3.grow
  have hlow3 : ∀ w ∈ ws3, dnsHdrLen ≤ w.1 :=
    fun w hw => (hs1 ▸ hseg2.grow).trans (hseg3.low w hw)
  have htake : t.pktBuf.take dnsHdrLen = s1.pktBuf.take dnsHdrLen := by
    have h3 := take_writes hw3 hlow3
    have h2 := take_writes hw2 (hs1 ▸ hseg2.low)
    rw [← hbuf3] at h3
    rw [← hbuf2] at h2
    exact h3.trans h2
  have hhdr : s1.pktBuf.take dnsHdrLen = hdrBytes (syncHdr m) := by
    change s1.pktBuf = writes ws1 buf at hbuf1
    rw [hbuf1, happ.writes]
    exact slice_patch_at buf 0 (hdrBytes (syncHdr m)) (Nat.zero_le _)
  rw [← hhdr, ← htake, Int.toNat_natCast]
  exact List.take_prefix_take_left (hs1 ▸ hgrow)

/-- The walk over an encoded message stays in the packet and ends where the packet ends. -/
theorem encoded_walk {m : DnsMsg}
    (hm : Built (fun _ => True) (fun _ => True) (fun _ => True) m) {buf : Bytes} {t : DnsEnc}
    {n : ℤ}
    (hrun : dnsMsgEncode m buf = .ok n t) (hn : 0 ≤ n) :
    (t.pktBuf.take n.toNat).length = n.toNat ∧ walk (t.pktBuf.take n.toNat) = some n.toNat := by
  obtain ⟨henc, rfl⟩ := dnsMsgEncode_run hrun hn
  obtain ⟨ws, hw, hbuf, ⟨hseg, hshows⟩, -⟩ := (traced_encodeMsg (encodable_built hm) buf).of_ok henc
  have hfits : t.pktLen ≤ buf.length := hseg.fits
  have hbuf : t.pktBuf = writes ws buf := hbuf
  have hw : Within buf.length ws := hw
  have hlen : (t.pktBuf.take t.pktLen).length = t.pktLen := by
    rw [List.length_take, hbuf, length_writes hw]
    exact Nat.min_eq_left hfits
  refine ⟨hlen, Framed.walk (hshows (walkable_built hm) buf _ rfl
    (by rw [Int.toNat_natCast, hlen]) ?_)⟩
  rw [Int.toNat_natCast, List.take_take, Nat.min_self, hbuf]

/-- A question and records of types that are not written as they are reserved. -/
def mixedMsg : DnsMsg :=
  let name (c : UInt8) (h : 0 ≠ c) : Str := some ⟨[c], fun hm => h (List.mem_singleton.mp hm)⟩
  let rr (rrType : UInt16) (rdata : Rdata Str) : DnsRr Str :=
    { zeroRr (none : Str) with
      name := name 97 (by decide), rrType := rrType, rrClass := 1, rdata := rdata }
  let m := (dnsAddQd (zeroMsg 0) (name 97 (by decide)) 1 1).2
  let m := (dnsAddRr m 1 (some (rr 15 { zeroRdata none with mxName := name 98 (by decide) }))).2
  let m := (dnsAddRr m 2 (some (rr 33 { zeroRdata none with srvName := name 99 (by decide) }))).2
  (dnsAddRr m 3 (some (rr 13 { zeroRdata none with hinfoCpuStr := name 100 (by decide) }))).2

theorem mixedMsg_walk : ∃ n t, dnsMsgEncode mixedMsg (List.replicate 600 7) = .ok n t ∧ n = 70 ∧
    walk (t.pktBuf.take n.toNat) = some 70 := by
  have hrun : (dnsMsgEncode mixedMsg (List.replicate 600 7)).result.map (fun p => p.1) =
      some 70 := by decide +kernel
  obtain ⟨n, t, henc, rfl⟩ := Outcome.eq_ok hrun
  have hname (c : UInt8) (h0 : c ≠ 0) (hd : c ≠ 46) : NameText (fun _ => True) [c] :=
    ⟨[[c]], trivial, by simpa using ⟨by simp, by simpa using hd.symm, by simpa using h0.symm⟩, rfl⟩
  refine ⟨_, t, henc, rfl, (encoded_walk ?_ henc (by decide)).2⟩
  exact ((Built.zero 0).addQd _ 1 1 (hname 97 (by decide) (by decide)) trivial)
    |>.addRr 1 _ trivial (hname 97 (by decide) (by decide))
      (by simpa [rdNames, rrKind, Str.bytes] using hname 98 (by decide) (by decide)) trivial
    |>.addRr 2 _ trivial (hname 97 (by decide) (by decide))
      (by simpa [rdNames, rrKind, Str.bytes] using hname 99 (by decide) (by decide)) trivial
    |>.addRr 3 _ trivial (hname 97 (by decide) (by decide)) (by simp [rdNames, rrKind]) trivial

end DnsPkt.EncodedFrames
