import DnsPkt.MessageRun

/-!
# Packet reads

Every read but one kind is preceded by a check against the packet length or
against an RDATA end that passed such a check. The fixed part at the start
of the RDATA is read after a check of `rdlen` only. The RDATA end is kept in
16 bits, so its check says nothing about that part when it wraps.
-/

set_option autoImplicit false

namespace DnsPkt.PacketBounds
open DnsPkt.CheckedRun DnsPkt.CheckedRun.Run DnsPkt.Octets DnsPkt.Protocol
open DnsPkt.MessageStore DnsPkt.ReportText DnsPkt.RecordDecoder DnsPkt.MessageDecoder
open DnsPkt.RecordRun DnsPkt.RecordEntry DnsPkt.MessageRun

def isPktRead : Fault → Prop
  | .pktRead _ => True
  | _ => False

/-- The bytes that are read at the start of the RDATA without a check of
their own, for a description that starts at cursor `w`. -/
def fixedLen (env : DecEnv) (h : RrHdr) (w : ℕ) : ℕ :=
  let described := env.needEmsg = true ∧ w+ip4AddrStrlen ≤ dnsMsgSize
  match rrKind h.rrType with
  | .a => if h.rdlen.toNat = 4 ∧ (env.loadMsg = true ∨ described) then 4 else 0
  | .aaaa =>
    if h.rdlen.toNat = 16 then
      if env.loadMsg then 16 else if described then 4 else 0
    else 0
  | .hinfo => if 2 ≤ h.rdlen.toNat then 1 else 0
  | .mx => if 3 ≤ h.rdlen.toNat then 2 else 0
  | .srv => if 7 ≤ h.rdlen.toNat then 6 else 0
  | _ => 0

theorem putMsg_reads (w : ℕ) (b : Bytes) (s : DecState) : Avoids isPktRead (putMsg w b) s := by
  intro c h
  obtain ⟨i, rfl⟩ := putMsg_fault h
  exact id

theorem snprintf_reads (w : ℕ) (text : Bytes) (s : DecState) :
    Avoids isPktRead (snprintf w text) s :=
  avoids_seq (putMsg_reads w _ s) fun _ _ _ => avoids_pure _ _

theorem describe_reads (env : DecEnv) (w : ℕ) (rc : ℤ) (text : Bytes) (s : DecState) :
    Avoids isPktRead (describe env w rc text) s := by
  unfold describe
  split
  · exact avoids_seq (snprintf_reads w text s) fun _ _ _ => avoids_pure _ _
  · exact avoids_pure _ _

theorem msgStr_reads (w : ℕ) (s : DecState) : Avoids isPktRead (msgStr w) s :=
  (msgStr_avoids w _ s).mpr (.inr id)

theorem nameField_reads (env : DecEnv) (field : DnsLocation) (w : ℕ) (s : DecState) :
    Avoids isPktRead (nameField env field w) s := by
  by_cases hw : w ≤ dnsMsgSize
  · exact nameField_avoids env field hw _ s
  · rcases nameField_over env field (Nat.lt_of_not_le hw) s with ⟨-, h⟩ | ⟨-, c, t, h⟩
    · exact (avoids_of_fault h).mpr id
    · exact avoids_of_exit h

theorem storeInto_avoids (sc : Sect) (str : Bytes) (f : ℕ → Ptr → DnsRr Ptr → DnsRr Ptr)
    (P : Fault → Prop) (s : DecState) : Avoids P (storeInto sc str f) s := by
  cases h : msgStoreStr s.msg.store str with
  | none => exact avoids_of_ok (storeInto_full h f)
  | some p => exact avoids_of_ok (storeInto_run h f)

theorem loadStr_avoids (sc : Sect) (str : Bytes) (f : ℕ → Ptr → DnsRr Ptr → DnsRr Ptr)
    (P : Fault → Prop) (s : DecState) : Avoids P (loadStr sc str f) s :=
  avoids_seq (storeInto_avoids sc str f P s) fun _ _ _ =>
    (avoids_when _ _ _).mpr fun _ => avoids_exit _ _

theorem loadName_reads (env : DecEnv) (sc : Sect) (w : ℕ)
    (f : ℕ → Ptr → DnsRr Ptr → DnsRr Ptr) (s : DecState) :
    Avoids isPktRead (loadName env sc w f) s :=
  (avoids_when _ _ _).mpr fun _ => avoids_seq (msgStr_reads w s) fun t u _ =>
    loadStr_avoids sc t f _ u

theorem loadRdata_avoids (env : DecEnv) (sc : Sect) (f : Rdata Ptr → Rdata Ptr)
    (P : Fault → Prop) (s : DecState) : Avoids P (loadRdata env sc f) s :=
  (avoids_when _ _ _).mpr fun _ => avoids_modify _ _

theorem loadTxt_avoids (sc : Sect) (str : Bytes) (P : Fault → Prop) (s : DecState) :
    Avoids P (loadTxt sc str) s :=
  avoids_seq (avoids_get s) fun _ _ _ =>
    avoids_seq ((avoids_when _ _ _).mpr fun _ => avoids_exit _ _) fun _ u _ =>
    avoids_seq (loadStr_avoids sc str _ P u) fun _ _ _ => avoids_modify _ _

theorem describeVals_reads (env : DecEnv) (vals : List (String × UInt32)) (w : ℕ) (rc : ℤ)
    (s : DecState) : Avoids isPktRead (describeVals env vals w rc) s := by
  induction vals generalizing w rc s with
  | nil => exact avoids_pure _ _
  | cons v rest ih => exact avoids_seq (describe_reads env w rc _ s) fun p t _ => ih p.1 p.2 t

theorem rrReport_reads (env : DecEnv) (sc : Sect) (h : RrHdr) (out : RdataOut) (s : DecState) :
    Avoids isPktRead (rrReport env sc h out) s := by
  unfold rrReport
  split
  · refine avoids_seq ?_ fun _ t _ => avoids_seq ?_ fun _ u _ => dnsWmsg_avoids _ _ _ u
    · unfold nameText
      split
      · exact avoids_pure _ _
      · exact msgStr_reads 0 s
    · cases out.desc with
      | empty => exact avoids_pure _ _
      | scratch w => exact msgStr_reads w t
      | unknown => exact avoids_pure _ _
  · exact avoids_pure _ _

section Reads

variable {env : DecEnv} {s : DecState}

theorem readBytes_reads (i n : ℕ) :
    Avoids isPktRead (readBytes env i n) s ↔ n = 0 ∨ i+n ≤ env.pkt.length := by
  simp [readBytes_avoids, isPktRead]

theorem bind_readBytes_reads {α : Type} (i n : ℕ) (f : Bytes → Dec α)
    (hf : ∀ b t, Avoids isPktRead (f b) t) :
    Avoids isPktRead (readBytes env i n >>= f) s ↔ n = 0 ∨ i+n ≤ env.pkt.length := by
  rw [avoids_bind, readBytes_reads]
  constructor
  · exact fun h => h.1
  · exact fun h => ⟨h, fun b t _ => hf b t⟩

theorem describeIp_reads (start w : ℕ) (rc : ℤ) (hw : w ≤ dnsMsgSize) :
    Avoids isPktRead (describeIp env start w rc) s ↔
      (env.needEmsg = true ∧ w+ip4AddrStrlen ≤ dnsMsgSize → start+4 ≤ env.pkt.length) := by
  unfold describeIp
  rw [sizeLeft_of_le hw]
  split_ifs with he hroom
  · have : ¬ w+ip4AddrStrlen ≤ dnsMsgSize := by omega
    simp [this]
  · have : w+ip4AddrStrlen ≤ dnsMsgSize := by omega
    rw [bind_readBytes_reads _ _ _ fun b t =>
      avoids_seq (putMsg_reads w _ t) fun _ _ _ => avoids_pure _ _]
    simp [he, this]
  · simp [he]

theorem rdataA_reads (sc : Sect) (h : RrHdr) (w start : ℕ) (rc : ℤ) (hw : w ≤ dnsMsgSize)
    (hk : rrKind h.rrType = .a) (hs : start ≤ env.pkt.length) :
    Avoids isPktRead (rdataA env sc h w start rc) s ↔
      start+fixedLen env h w ≤ env.pkt.length := by
  unfold rdataA
  by_cases hlen : h.rdlen.toNat = 4
  · rw [when_neg (by simpa using hlen), avoids_bind_of_ok (pure_run _ _)]
    by_cases hl : env.loadMsg = true
    · rw [when_pos hl, avoids_bind, bind_readBytes_reads _ _ _ fun b t =>
        loadRdata_avoids _ _ _ _ t]
      simp only [fixedLen, hk, hlen, hl, true_or, and_self, if_true]
      constructor
      · exact fun h => by have := h.1; omega
      · intro h4
        refine ⟨.inr h4, fun _ t _ => ?_⟩
        rw [avoids_bind_of_ok (advance_run _ _), describeIp_reads _ _ _ hw]
        exact fun _ => h4
    · rw [when_neg hl, avoids_bind_of_ok (pure_run _ _), avoids_bind_of_ok (advance_run _ _),
        describeIp_reads _ _ _ hw]
      simp only [fixedLen, hk, hlen, true_and]
      split_ifs with hd
      · exact ⟨fun hr => hr (hd.resolve_left hl), fun hr _ => hr⟩
      · exact ⟨fun _ => hs, fun _ hr => absurd (.inr hr) hd⟩
  · rw [when_pos hlen]
    simp only [fixedLen, hk, hlen, false_and, if_false, Nat.add_zero, hs, iff_true]
    exact avoids_of_exit rfl

theorem rdataAaaa_reads (sc : Sect) (h : RrHdr) (w start : ℕ) (rc : ℤ) (hw : w ≤ dnsMsgSize)
    (hk : rrKind h.rrType = .aaaa) (hs : start ≤ env.pkt.length) :
    Avoids isPktRead (rdataAaaa env sc h w start rc) s ↔
      start+fixedLen env h w ≤ env.pkt.length := by
  unfold rdataAaaa
  by_cases hlen : h.rdlen.toNat = 16
  · rw [when_neg (by simpa using hlen), avoids_bind_of_ok (pure_run _ _),
      avoids_bind_of_ok (advance_run _ _)]
    by_cases hl : env.loadMsg = true
    · rw [when_pos hl, avoids_bind, bind_readBytes_reads _ _ _ fun b t =>
        loadRdata_avoids _ _ _ _ t]
      simp only [fixedLen, hk, hlen, hl, if_true]
      constructor
      · exact fun h => by have := h.1; omega
      · intro h16
        refine ⟨.inr h16, fun _ t _ => ?_⟩
        rw [describeIp_reads _ _ _ hw]
        exact fun _ => by omega
    · rw [when_neg hl, avoids_bind_of_ok (pure_run _ _), describeIp_reads _ _ _ hw]
      simp only [fixedLen, hk, hlen, if_true, if_neg hl]
      split_ifs with hd
      · exact ⟨fun hr => hr hd, fun hr _ => hr⟩
      · exact ⟨fun _ => hs, fun _ hr => absurd hr hd⟩
  · rw [when_pos hlen]
    simp only [fixedLen, hk, hlen, if_false, Nat.add_zero, hs, iff_true]
    exact avoids_of_exit rfl

theorem strField_reads (field : DnsLocation) (label : Bytes) (rdEnd w : ℕ) (rc : ℤ)
    {load : Bytes → Dec Unit} (hload : ∀ str t, Avoids isPktRead (load str) t)
    (hrd : rdEnd ≤ env.pkt.length) :
    Avoids isPktRead (strField env field label rdEnd w rc load) s ↔
      s.dec.offset+1 ≤ env.pkt.length := by
  unfold strField
  rw [avoids_bind_of_ok (getOffset_run s), avoids_bind, readBytes_reads]
  constructor
  · exact fun h => by have := h.1; omega
  · refine fun h => ⟨.inr h, fun b t _ => avoids_seq (avoids_modify _ _) fun _ u _ =>
      avoids_seq ((avoids_when _ _ _).mpr fun _ => avoids_of_exit rfl) fun _ v hv => ?_⟩
    have hin : ¬ rdEnd < s.dec.offset+1+(b.getD 0 0).toNat := by
      intro hlt
      rw [when_pos hlt] at hv
      cases hv
    refine avoids_seq ((readBytes_reads _ _).mpr (.inr (by omega))) fun str v' _ =>
      avoids_seq (describe_reads _ _ _ _ _) fun p v'' _ =>
      avoids_seq ((avoids_when _ _ _).mpr fun _ => hload str v'') fun _ _ _ =>
      avoids_seq (avoids_modify _ _) fun _ _ _ => avoids_pure _ _

theorem rdataHinfo_reads (sc : Sect) (h : RrHdr) (w rdEnd : ℕ) (rc : ℤ)
    (hk : rrKind h.rrType = .hinfo) (hs : s.dec.offset ≤ env.pkt.length)
    (hrd : rdEnd ≤ env.pkt.length) :
    Avoids isPktRead (rdataHinfo env sc h w rdEnd rc) s ↔
      s.dec.offset+fixedLen env h w ≤ env.pkt.length := by
  unfold rdataHinfo
  by_cases hlen : h.rdlen.toNat < 2
  · rw [when_pos hlen]
    simp only [fixedLen, hk, show ¬ 2 ≤ h.rdlen.toNat by omega, if_false, Nat.add_zero, hs,
      iff_true]
    exact avoids_of_exit rfl
  · rw [when_neg hlen, avoids_bind_of_ok (pure_run _ _), avoids_bind,
      strField_reads _ _ _ _ _ (fun str t => loadStr_avoids _ _ _ _ t) hrd]
    simp only [fixedLen, hk, show 2 ≤ h.rdlen.toNat by omega, if_true]
    refine and_iff_left fun p t _ => avoids_seq (avoids_of_ok (getOffset_run t)) fun off u hu => ?_
    cases hu
    refine avoids_seq ((avoids_when _ _ _).mpr fun _ => avoids_of_exit rfl) fun _ v hv => ?_
    have hin : ¬ rdEnd ≤ t.dec.offset := by
      intro hle
      rw [when_pos hle] at hv
      cases hv
    rw [when_neg hin] at hv
    cases hv
    refine avoids_seq ?_ fun _ _ _ => avoids_pure _ _
    exact (strField_reads _ _ _ _ _ (fun str t => loadStr_avoids _ _ _ _ t) hrd).mpr (by omega)

theorem txtLoop_reads (sc : Sect) (rdEnd k w : ℕ) (rc : ℤ) (hrd : rdEnd ≤ env.pkt.length) :
    Avoids isPktRead (txtLoop env sc rdEnd k w rc) s := by
  induction k generalizing w rc s with
  | zero => exact avoids_pure _ _
  | succ k ih =>
    unfold txtLoop
    rw [avoids_bind_of_ok (getOffset_run s)]
    split
    · refine avoids_seq ?_ fun p t _ => ih p.1 p.2
      exact (strField_reads _ _ _ _ _ (fun str t => loadTxt_avoids _ _ _ t) hrd).mpr (by omega)
    · exact avoids_pure _ _

theorem rdataSoa_reads (sc : Sect) (w rdEnd : ℕ) (rc : ℤ) (hrd : rdEnd ≤ env.pkt.length) :
    Avoids isPktRead (rdataSoa env sc w rdEnd rc) s := by
  unfold rdataSoa
  refine avoids_seq (describe_reads _ _ _ _ _) fun p1 _ _ =>
    avoids_seq (nameField_reads _ _ _ _) fun _ _ _ =>
    avoids_seq (loadName_reads _ _ _ _ _) fun _ _ _ =>
    avoids_seq (describe_reads _ _ _ _ _) fun p2 _ _ =>
    avoids_seq (nameField_reads _ _ _ _) fun _ _ _ =>
    avoids_seq ((avoids_when _ _ _).mpr fun _ => avoids_seq (msgStr_reads _ _) fun _ _ _ =>
      avoids_seq (storeInto_avoids _ _ _ _ _) fun _ _ _ => avoids_pure _ _) fun _ t _ =>
    avoids_seq (avoids_of_ok (getOffset_run t)) fun off u hu => ?_
  cases hu
  refine avoids_seq ((avoids_when _ _ _).mpr fun _ => avoids_of_exit rfl) fun _ v hv => ?_
  have hin : ¬ rdEnd < t.dec.offset+20 := by
    intro hlt
    rw [when_pos hlt] at hv
    cases hv
  refine avoids_seq ((readBytes_reads _ _).mpr (.inr (by omega))) fun _ _ _ =>
    avoids_seq (avoids_modify _ _) fun _ _ _ =>
    avoids_seq (describeVals_reads _ _ _ _ _) fun _ _ _ =>
    avoids_seq (loadRdata_avoids _ _ _ _ _) fun _ _ _ => avoids_pure _ _

theorem rdataNumsName_reads (sc : Sect) (h : RrHdr) (field : DnsLocation) {len : ℕ}
    (text : Bytes → Bytes) (setNums : Bytes → Rdata Ptr → Rdata Ptr)
    (setName : Ptr → Rdata Ptr → Rdata Ptr) (w start : ℕ) (rc : ℤ) (hlen0 : len ≠ 0)
    (hfixed : fixedLen env h w = if len+1 ≤ h.rdlen.toNat then len else 0)
    (hs : start ≤ env.pkt.length) :
    Avoids isPktRead (rdataNumsName env sc h field len text setNums setName w start rc) s ↔
      start+fixedLen env h w ≤ env.pkt.length := by
  unfold rdataNumsName
  by_cases hlen : h.rdlen.toNat < len+1
  · rw [when_pos hlen]
    simp only [hfixed, if_neg (Nat.not_le.mpr hlen), Nat.add_zero, hs, iff_true]
    exact avoids_of_exit rfl
  · rw [when_neg hlen, avoids_bind_of_ok (pure_run _ _), bind_readBytes_reads]
    · simp only [hfixed, if_pos (Nat.le_of_not_lt hlen), hlen0, false_or]
    · exact fun b t => avoids_seq (avoids_modify _ _) fun _ _ _ =>
        avoids_seq (describe_reads _ _ _ _ _) fun p _ _ =>
        avoids_seq (nameField_reads _ _ _ _) fun _ _ _ =>
        avoids_seq (loadRdata_avoids _ _ _ _ _) fun _ _ _ =>
        avoids_seq (loadName_reads _ _ _ _ _) fun _ _ _ => avoids_pure _ _

theorem rdataMx_reads (sc : Sect) (h : RrHdr) (w start : ℕ) (rc : ℤ)
    (hk : rrKind h.rrType = .mx) (hs : start ≤ env.pkt.length) :
    Avoids isPktRead (rdataMx env sc h w start rc) s ↔
      start+fixedLen env h w ≤ env.pkt.length := by
  rw [rdataMx_eq]
  exact rdataNumsName_reads sc h _ _ _ _ w start rc (by decide) (by simp only [fixedLen, hk]) hs

theorem rdataSrv_reads (sc : Sect) (h : RrHdr) (w start : ℕ) (rc : ℤ)
    (hk : rrKind h.rrType = .srv) (hs : start ≤ env.pkt.length) :
    Avoids isPktRead (rdataSrv env sc h w start rc) s ↔
      start+fixedLen env h w ≤ env.pkt.length := by
  rw [rdataSrv_eq]
  exact rdataNumsName_reads sc h _ _ _ _ w start rc (by decide) (by simp only [fixedLen, hk]) hs

theorem rdataName_reads (sc : Sect) (field : DnsLocation)
    (f : ℕ → Ptr → Rdata Ptr → Rdata Ptr) (w : ℕ) :
    Avoids isPktRead (rdataName env sc field f w) s :=
  avoids_seq (nameField_reads _ _ _ _) fun _ _ _ =>
    avoids_seq (loadName_reads _ _ _ _ _) fun _ _ _ => avoids_pure _ _

theorem rdataOpt_reads (sc : Sect) (h : RrHdr) (w rdEnd : ℕ) :
    Avoids isPktRead (rdataOpt env sc h w rdEnd) s :=
  avoids_seq ((avoids_when _ _ _).mpr fun _ => avoids_of_exit rfl) fun _ _ _ =>
    avoids_seq ((avoids_when _ _ _).mpr fun _ => avoids_seq (avoids_modify _ _) fun _ _ _ =>
      avoids_seq (msgStr_reads _ _) fun _ _ _ => loadStr_avoids _ _ _ _ _) fun _ _ _ =>
    avoids_seq (avoids_get _) fun _ _ _ =>
    avoids_seq (snprintf_reads _ _ _) fun _ _ _ =>
    avoids_seq (avoids_modify _ _) fun _ _ _ => avoids_pure _ _

theorem rdataSkip_reads (h : RrHdr) (rc : ℤ) : Avoids isPktRead (rdataSkip h rc) s :=
  avoids_seq (avoids_modify _ _) fun _ _ _ => avoids_pure _ _

theorem rrRdata_reads (sc : Sect) (h : RrHdr) (w rdEnd : ℕ) (rc : ℤ) (hw : w ≤ dnsMsgSize)
    (hs : s.dec.offset ≤ env.pkt.length) (hrd : rdEnd ≤ env.pkt.length) :
    Avoids isPktRead (rrRdata env sc h w s.dec.offset rdEnd rc) s ↔
      s.dec.offset+fixedLen env h w ≤ env.pkt.length := by
  unfold rrRdata
  cases hk : rrKind h.rrType with
  | a => exact rdataA_reads sc h w _ rc hw hk hs
  | hinfo => exact rdataHinfo_reads sc h w rdEnd rc hk hs hrd
  | mx => exact rdataMx_reads sc h w _ rc hk hs
  | aaaa => exact rdataAaaa_reads sc h w _ rc hw hk hs
  | srv => exact rdataSrv_reads sc h w _ rc hk hs
  | soa => simpa [fixedLen, hk, hs] using rdataSoa_reads sc w rdEnd rc hrd
  | opt => simpa [fixedLen, hk, hs] using rdataOpt_reads sc h w rdEnd
  | any => simpa [fixedLen, hk, hs] using rdataSkip_reads h rc
  | other => simpa [fixedLen, hk, hs] using rdataSkip_reads h rc
  | ns => simpa [fixedLen, hk, hs, rdataNs] using rdataName_reads sc _ _ w
  | cname => simpa [fixedLen, hk, hs, rdataCname] using rdataName_reads sc _ _ w
  | ptr => simpa [fixedLen, hk, hs, rdataPtr] using rdataName_reads sc _ _ w
  | txt =>
    have : Avoids isPktRead (rdataTxt env sc w s.dec.offset rdEnd rc) s :=
      avoids_seq (txtLoop_reads sc rdEnd _ w rc hrd) fun _ _ _ => avoids_pure _ _
    simpa [fixedLen, hk, hs] using this

theorem rrTail_reads (sc : Sect) (h : RrHdr) (n rdEnd : ℕ) (hw : n+1 ≤ dnsMsgSize)
    (hs : s.dec.offset ≤ env.pkt.length) (hrd : rdEnd ≤ env.pkt.length) :
    Avoids isPktRead (rrTail env sc h n s.dec.offset rdEnd) s ↔
      s.dec.offset+fixedLen env h (n+1) ≤ env.pkt.length := by
  rw [rrTail, avoids_bind, rrRdata_reads sc h (n+1) rdEnd n hw hs hrd]
  exact and_iff_left fun out t _ => avoids_seq (avoids_of_ok (getOffset_run t)) fun _ _ _ =>
    avoids_seq ((avoids_when _ _ _).mpr fun _ => avoids_of_exit rfl) fun _ _ _ =>
    avoids_seq ((avoids_when _ _ _).mpr fun _ => avoids_modify _ _) fun _ _ _ =>
    rrReport_reads _ _ _ _ _

end Reads

/-- The record at the decoder's offset reaches its RDATA and has the bytes
that are read there unchecked inside the packet. -/
def FixedInside (env : DecEnv) (v : Sect × DecState) : Prop :=
  ∀ text e, Entry env v.1 v.2 text e →
    e+10+fixedLen env (hdrAt env.pkt e) ((shown text).length+1) ≤ env.pkt.length

theorem dnsRrDecode_reads (env : DecEnv) (v : Sect × DecState) :
    Avoids isPktRead (dnsRrDecode env v.1) v.2 ↔ FixedInside env v := by
  unfold dnsRrDecode FixedInside
  rw [avoids_call]
  by_cases h : ∃ text e, Entry env v.1 v.2 text e
  · obtain ⟨text, e, h⟩ := h
    have htail := @rrTail_reads env (entered env v.1 v.2 text e) v.1
      (hdrAt env.pkt e) (shown text).length (rdEndAt env.pkt e) h.room h.hdr h.rdata
    rw [Avoids, rrBody_entered h]
    refine htail.trans ⟨fun hin text' e' h' => ?_, fun hin => hin text e h⟩
    obtain ⟨rfl, rfl⟩ := h.unique h'
    exact hin
  · push Not at h
    obtain ⟨c, t, hx⟩ := rrBody_rejected h
    exact iff_of_true (avoids_of_exit hx) fun text e he => absurd he (h text e)

theorem avoids_pktRead {α : Type} (x : Dec α) (s : DecState) :
    Avoids isPktRead x s ↔ ∀ i, x s ≠ .fault (.pktRead i) := by
  constructor
  · exact fun h i hi => h _ hi trivial
  · intro h c hc hp
    cases c with
    | pktRead i => exact h i hc
    | _ => exact hp

/-- Both entry points stay inside the packet exactly when every record they
decode has the fixed part of its RDATA inside the packet. -/
theorem reads_inside_packet_iff (pkt : Bytes) (emsgLen : ℕ) (m : DnsMsg) :
    ((∀ i, dnsValidate pkt emsgLen ≠ .fault (.pktRead i)) ↔
      ∀ v ∈ recordVisits (validateEnv pkt emsgLen) (zeroMsg 0),
        FixedInside (validateEnv pkt emsgLen) v) ∧
    ((∀ i, dnsMsgDecode m pkt ≠ .fault (.pktRead i)) ↔
      ∀ v ∈ recordVisits (loadEnv pkt) m, FixedInside (loadEnv pkt) v) := by
  constructor
  · rw [dnsValidate, ← avoids_pktRead, validateRun_avoids]
    simp only [dnsRrDecode_reads]
  · rw [dnsMsgDecode, ← avoids_pktRead, decodeMsg_avoids]
    simp only [dnsRrDecode_reads]

/-- A `HINFO` record at the end of the packet whose RDATA end wraps to 22. -/
def hinfoPkt : Bytes := responseHdr 1 0 0 ++ [0, 0, 13, 0, 1, 0, 0, 0, 0, 255, 255]

theorem hinfo_reads_past_packet :
    hinfoPkt.length = 23 ∧ dnsValidate hinfoPkt 1000 = .fault (.pktRead 23) ∧
      dnsMsgDecode (zeroMsg 0) hinfoPkt = .fault (.pktRead 23) :=
  ⟨rfl, Outcome.eq_fault (by decide +kernel), Outcome.eq_fault (by decide +kernel)⟩

end DnsPkt.PacketBounds
