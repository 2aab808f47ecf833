import DnsPkt.MessageSlots
import DnsPkt.RecordRun

/-!
# What a record decode leaves alone

A frame that allows the primitive effects of the record decoder is kept by
all of its statements. The jump of `OPT` to the end of its RDATA is the one
effect that may move the offset back, so it is listed apart.
-/

set_option autoImplicit false

namespace DnsPkt.RecordFrame
open DnsPkt.CheckedRun DnsPkt.CheckedRun.Run DnsPkt.Octets DnsPkt.Protocol
open DnsPkt.MessageStore DnsPkt.MessageSlots DnsPkt.NameDecoder DnsPkt.RecordDecoder
open DnsPkt.RecordRun

/-- The effects of a decode on anything but the report. Scratch writes are allowed from
position `lo` on. -/
structure AllowsFill (lo : ℕ) (F : Frame DecState ℤ Fault) : Prop where
  put : ∀ s w b, lo ≤ w → F.keep s (put s w b)
  move : ∀ s off, s.dec.offset ≤ off → F.keep s (moveTo s off)
  load : ∀ s m, Touch s.msg m → F.keep s { s with msg := m }
  err : ∀ s group field ec,
    F.leave s (dnsDecErr group field ec s).1 (dnsDecErr group field ec s).2
  fail : ∀ s, F.leave s (-1) s
  reads : ∀ i, F.raise (.pktRead i)
  writes : ∀ i, F.raise (.msgWrite i)
  strings : ∀ i, F.raise (.msgRead i)

structure Allows (lo : ℕ) (F : Frame DecState ℤ Fault) : Prop extends AllowsFill lo F where
  report : ∀ s e, F.keep s { s with dec.emsg := e }

theorem describe_le {env : DecEnv} {w : ℕ} {rc : ℤ} {text : Bytes} {s t : DecState} {p : ℕ × ℤ}
    (h : describe env w rc text s = .ok p t) : w ≤ p.1 := by
  unfold describe at h
  split at h
  · obtain ⟨n, m, -, h⟩ := (bind_ok _ _ _ _ _).mp h
    cases h
    exact Nat.le_add_right _ _
  · cases h
    exact le_rfl

theorem strField_le {env : DecEnv} {field : DnsLocation} {label : Bytes} {rdEnd w : ℕ} {rc : ℤ}
    {load : Bytes → Dec Unit} {s t : DecState} {p : ℕ × ℤ}
    (h : strField env field label rdEnd w rc load s = .ok p t) : w ≤ p.1 := by
  unfold strField at h
  rw [bind_of_ok (getOffset_run s)] at h
  obtain ⟨_, _, -, h⟩ := (bind_ok _ _ _ _ _).mp h
  obtain ⟨_, _, -, h⟩ := (bind_ok _ _ _ _ _).mp h
  obtain ⟨_, _, -, h⟩ := (bind_ok _ _ _ _ _).mp h
  obtain ⟨_, _, -, h⟩ := (bind_ok _ _ _ _ _).mp h
  obtain ⟨q, _, hq, h⟩ := (bind_ok _ _ _ _ _).mp h
  obtain ⟨_, _, -, h⟩ := (bind_ok _ _ _ _ _).mp h
  obtain ⟨_, _, -, h⟩ := (bind_ok _ _ _ _ _).mp h
  cases h
  exact describe_le hq

section Frames

variable {F : Frame DecState ℤ Fault}

theorem keeps_getOffset : Keeps F getOffset := .of_ok fun s => ⟨_, s, rfl, F.refl s⟩

variable {lo : ℕ} (hF : AllowsFill lo F)
include hF

theorem keeps_readBytes (env : DecEnv) (i n : ℕ) : Keeps F (readBytes env i n) where
  ok h := by
    obtain ⟨-, -, rfl⟩ := readBytes_ok h
    exact F.refl _
  exit h := by
    unfold readBytes at h
    split at h <;> cases h
  fault {s c} h := by
    by_cases hn : n = 0 ∨ i+n ≤ env.pkt.length
    · rw [readBytes_run env hn] at h
      cases h
    · rw [readBytes_over env hn] at h
      cases h
      exact hF.reads _

theorem keeps_msgStr (w : ℕ) : Keeps F (msgStr w) where
  ok {s b t} h := by
    rw [(msgStr_ok h).1]
    exact F.refl s
  exit h := by
    unfold msgStr at h
    split_ifs at h
  fault h := by
    unfold msgStr at h
    split_ifs at h
    cases h
    exact hF.strings _

theorem keeps_retErr {α : Type} (group field : DnsLocation) (ec : ℤ) :
    Keeps F (retErr group field ec : Dec α) :=
  .of_exit fun s => ⟨_, _, rfl, hF.err s group field ec⟩

theorem keeps_exit_fail {α : Type} : Keeps F (exit (-1) : Dec α) := keeps_exit hF.fail

theorem keeps_advance (n : ℕ) : Keeps F (advance n) :=
  keeps_modify fun s => hF.move s _ (Nat.le_add_right _ _)

theorem keeps_putMsg {w : ℕ} (hw : lo ≤ w) (b : Bytes) : Keeps F (putMsg w b) where
  ok {s a t} h := by
    by_cases hfit : w+b.length ≤ dnsMsgSize
    · rw [putMsg_run hfit] at h
      cases h
      exact hF.put s w b hw
    · by_cases hb : b = []
      · simp only [putMsg, hb, if_true, Outcome.ok.injEq] at h
        exact h.2 ▸ F.refl s
      · rw [putMsg_over hb (by omega)] at h
        cases h
  exit h := by
    unfold putMsg at h
    split_ifs at h
  fault h := by
    obtain ⟨i, rfl⟩ := putMsg_fault h
    exact hF.writes i

theorem keeps_snprintf {w : ℕ} (hw : lo ≤ w) (text : Bytes) : Keeps F (snprintf w text) :=
  (keeps_putMsg hF hw _).bind fun _ => keeps_pure _

theorem keeps_describe (env : DecEnv) {w : ℕ} (hw : lo ≤ w) (rc : ℤ) (text : Bytes) :
    Keeps F (describe env w rc text) := by
  unfold describe
  split
  · exact (keeps_snprintf hF hw text).bind fun _ => keeps_pure _
  · exact keeps_pure _

theorem keeps_fixLabel (n : ℕ) {w : ℕ} (hw : lo ≤ w) : Keeps F (fixLabel n w) := by
  unfold fixLabel dnsAddStr
  split
  · exact keeps_pure _
  · exact (keeps_when _ fun _ => keeps_exit_fail hF).bind fun _ =>
      (keeps_putMsg hF hw _).bind fun _ => keeps_pure _

theorem keeps_decodeNameAt (env : DecEnv) {w : ℕ} (hw : lo ≤ w) :
    Keeps F (decodeNameAt env w) := by
  have hrun (s : DecState) : ∃ r : NameOut, s.dec.offset ≤ r.offset ∧
      decodeNameAt env w s = (putMsg w r.out >>= fun _ =>
        modify (fun s => { s with dec.offset := r.offset }) >>= fun _ => pure r.result) s := by
    obtain ⟨r, hr, hle, -, -⟩ := decodeName_total env.pkt s.dec.offset (sizeLeft w)
    exact ⟨r, hle, by simp only [decodeNameAt, hr]⟩
  constructor
  · intro s a t h
    obtain ⟨r, hle, hr⟩ := hrun s
    obtain ⟨_, u, hu, h⟩ := (bind_ok _ _ _ _ _).mp (hr.symm.trans h)
    cases h
    have hoff : u.dec.offset = s.dec.offset := by
      unfold putMsg at hu
      split_ifs at hu <;> cases hu <;> rfl
    exact F.trans ((keeps_putMsg hF hw _).ok hu) (hF.move u r.offset (by omega))
  · intro s e t h
    obtain ⟨r, -, hr⟩ := hrun s
    rcases (bind_exit _ _ _ _ _).mp (hr.symm.trans h) with h | ⟨_, u, hu, h⟩
    · exact (keeps_putMsg hF hw _).exit h
    · cases h
  · intro s c h
    obtain ⟨r, -, hr⟩ := hrun s
    rcases (bind_fault _ _ _ _).mp (hr.symm.trans h) with h | ⟨_, u, hu, h⟩
    · exact (keeps_putMsg hF hw _).fault h
    · cases h

theorem keeps_nameField (env : DecEnv) (field : DnsLocation) {w : ℕ} (hw : lo ≤ w) :
    Keeps F (nameField env field w) := by
  refine (keeps_decodeNameAt hF env hw).bind fun r => ?_
  cases r with
  | error ec => exact keeps_retErr hF _ _ _
  | ok n => exact keeps_fixLabel hF n hw

theorem keeps_modifySlot (sc : Sect) {f : ℕ → DnsRr Ptr → DnsRr Ptr}
    (hf : ∀ base, KeepsTxt (f base)) : Keeps F (RecordDecoder.modifySlot sc f) :=
  keeps_modify fun s => hF.load s _ (.slot sc (hf _))

theorem keeps_storeInto (sc : Sect) (str : Bytes) {f : ℕ → Ptr → DnsRr Ptr → DnsRr Ptr}
    (hf : ∀ base p, KeepsTxt (f base p)) : Keeps F (storeInto sc str f) := by
  refine .of_ok fun s => ?_
  unfold storeInto
  split
  · next off st hst =>
    refine ⟨_, _, rfl, F.trans (hF.load s { s.msg with store := st } (.store hst)) ?_⟩
    exact hF.load { s with msg.store := st } _ (.slot sc (hf _ _))
  · exact ⟨_, _, rfl, hF.load s _ (.slot sc (hf _ _))⟩

theorem keeps_loadStr (sc : Sect) (str : Bytes) {f : ℕ → Ptr → DnsRr Ptr → DnsRr Ptr}
    (hf : ∀ base p, KeepsTxt (f base p)) : Keeps F (loadStr sc str f) :=
  (keeps_storeInto hF sc str hf).bind fun _ => keeps_when _ fun _ => keeps_exit_fail hF

theorem keeps_loadName (env : DecEnv) (sc : Sect) (w : ℕ)
    {f : ℕ → Ptr → DnsRr Ptr → DnsRr Ptr} (hf : ∀ base p, KeepsTxt (f base p)) :
    Keeps F (loadName env sc w f) :=
  keeps_when _ fun _ => (keeps_msgStr hF w).bind fun t => keeps_loadStr hF sc t hf

theorem keeps_loadRdata (env : DecEnv) (sc : Sect) {f : Rdata Ptr → Rdata Ptr}
    (hf : ∀ r, (f r).txtStr.length = r.txtStr.length) : Keeps F (loadRdata env sc f) :=
  keeps_when _ fun _ => keeps_modifySlot hF sc fun _ r => hf r.rdata

theorem keeps_describeIp (env : DecEnv) (start : ℕ) {w : ℕ} (hw : lo ≤ w) (rc : ℤ) :
    Keeps F (describeIp env start w rc) := by
  unfold describeIp
  split_ifs
  · exact keeps_pure _
  · exact (keeps_readBytes hF env _ _).bind fun _ => (keeps_putMsg hF hw _).bind fun _ =>
      keeps_pure _
  · exact keeps_pure _

theorem keeps_rdataA (env : DecEnv) (sc : Sect) (h : RrHdr) {w : ℕ} (hw : lo ≤ w) (start : ℕ)
    (rc : ℤ) :
    Keeps F (rdataA env sc h w start rc) :=
  (keeps_when _ fun _ => keeps_retErr hF _ _ _).bind fun _ =>
    (keeps_when _ fun _ => (keeps_readBytes hF env _ _).bind fun _ =>
      keeps_loadRdata hF env sc fun _ => by rfl).bind fun _ =>
    (keeps_advance hF 4).bind fun _ => keeps_describeIp hF env start hw rc

theorem keeps_rdataAaaa (env : DecEnv) (sc : Sect) (h : RrHdr) {w : ℕ} (hw : lo ≤ w) (start : ℕ)
    (rc : ℤ) :
    Keeps F (rdataAaaa env sc h w start rc) :=
  (keeps_when _ fun _ => keeps_retErr hF _ _ _).bind fun _ =>
    (keeps_advance hF 16).bind fun _ =>
    (keeps_when _ fun _ => (keeps_readBytes hF env _ _).bind fun _ =>
      keeps_loadRdata hF env sc (length_setAaaa _)).bind fun _ =>
    keeps_describeIp hF env start hw rc

theorem keeps_rdataName (env : DecEnv) (sc : Sect) (field : DnsLocation)
    {f : ℕ → Ptr → Rdata Ptr → Rdata Ptr} (hf : ∀ base p r, (f base p r).txtStr = r.txtStr) {w : ℕ}
    (hw : lo ≤ w) : Keeps F (rdataName env sc field f w) :=
  (keeps_nameField hF env field hw).bind fun _ =>
    (keeps_loadName hF env sc w fun base p r => congrArg List.length (hf base p r.rdata)).bind
      fun _ => keeps_pure _

theorem keeps_describeVals (env : DecEnv) (vals : List (String × UInt32)) {w : ℕ} (hw : lo ≤ w)
    (rc : ℤ) : Keeps F (describeVals env vals w rc) := by
  induction vals generalizing w rc with
  | nil => exact keeps_pure _
  | cons v rest ih =>
    exact (keeps_describe hF env hw rc _).bind_of_result fun _ p _ hp =>
      ih (hw.trans (describe_le hp)) p.2

theorem keeps_rdataSoa (env : DecEnv) (sc : Sect) {w : ℕ} (hw : lo ≤ w) (rdEnd : ℕ) (rc : ℤ) :
    Keeps F (rdataSoa env sc w rdEnd rc) := by
  refine (keeps_describe hF env hw rc _).bind_of_result fun _ p1 _ h1 => ?_
  have hw1 : lo ≤ p1.1 := hw.trans (describe_le h1)
  refine (keeps_nameField hF env _ hw1).bind fun n1 =>
    (keeps_loadName hF env sc p1.1 fun _ _ _ => by rfl).bind fun _ =>
    (keeps_describe hF env (show lo ≤ p1.1+n1 by omega) rc _).bind_of_result fun _ p2 _ h2 => ?_
  have hw2 : lo ≤ p2.1 := by
    have := describe_le h2
    omega
  exact (keeps_nameField hF env _ hw2).bind fun n2 =>
    (keeps_when _ fun _ => (keeps_msgStr hF p2.1).bind fun t =>
      (keeps_storeInto hF sc t fun _ _ _ => by exact List.length_set).bind fun _ =>
        keeps_pure _).bind fun _ =>
    keeps_getOffset.bind fun _ =>
    (keeps_when _ fun _ => keeps_retErr hF _ _ _).bind fun _ =>
    (keeps_readBytes hF env _ _).bind fun _ =>
    (keeps_advance hF 20).bind fun _ =>
    (keeps_describeVals hF env _ (show lo ≤ p2.1+n2 by omega) _).bind fun _ =>
    (keeps_loadRdata hF env sc fun _ => by simp [Rdata.setSoaVals, Rdata.word]).bind fun _ =>
    keeps_pure _

theorem keeps_strField (env : DecEnv) (field : DnsLocation) (label : Bytes) (rdEnd : ℕ) {w : ℕ}
    (hw : lo ≤ w) (rc : ℤ) {load : Bytes → Dec Unit} (hload : ∀ str, Keeps F (load str)) :
    Keeps F (strField env field label rdEnd w rc load) :=
  keeps_getOffset.bind fun _ =>
    (keeps_readBytes hF env _ _).bind fun _ =>
    (keeps_advance hF 1).bind fun _ =>
    (keeps_when _ fun _ => keeps_retErr hF _ _ _).bind fun _ =>
    (keeps_readBytes hF env _ _).bind fun str =>
    (keeps_describe hF env hw rc _).bind fun _ =>
    (keeps_when _ fun _ => hload str).bind fun _ =>
    (keeps_advance hF _).bind fun _ => keeps_pure _

theorem keeps_rdataHinfo (env : DecEnv) (sc : Sect) (h : RrHdr) {w : ℕ} (hw : lo ≤ w) (rdEnd : ℕ)
    (rc : ℤ) : Keeps F (rdataHinfo env sc h w rdEnd rc) :=
  (keeps_when _ fun _ => keeps_retErr hF _ _ _).bind fun _ =>
    (keeps_strField hF env _ _ rdEnd hw rc fun str =>
      keeps_loadStr hF sc str fun _ _ _ => by rfl).bind_of_result fun _ _ _ h1 =>
    keeps_getOffset.bind fun _ =>
    (keeps_when _ fun _ => keeps_retErr hF _ _ _).bind fun _ =>
    (keeps_strField hF env _ _ rdEnd (hw.trans (strField_le h1)) _ fun str =>
      keeps_loadStr hF sc str fun _ _ _ => by exact List.length_set).bind fun _ => keeps_pure _

theorem keeps_rdataNumsName (env : DecEnv) (sc : Sect) (h : RrHdr) (field : DnsLocation) (len : ℕ)
    (text : Bytes → Bytes) {setNums : Bytes → Rdata Ptr → Rdata Ptr}
    {setName : Ptr → Rdata Ptr → Rdata Ptr}
    (hnums : ∀ b r, (setNums b r).txtStr.length = r.txtStr.length)
    (hname : ∀ p r, (setName p r).txtStr.length = r.txtStr.length) {w : ℕ} (hw : lo ≤ w)
    (start : ℕ) (rc : ℤ) :
    Keeps F (rdataNumsName env sc h field len text setNums setName w start rc) :=
  (keeps_when _ fun _ => keeps_retErr hF _ _ _).bind fun _ =>
    (keeps_readBytes hF env _ _).bind fun _ =>
    (keeps_advance hF len).bind fun _ =>
    (keeps_describe hF env hw rc _).bind_of_result fun _ p _ hp =>
    (keeps_nameField hF env _ (hw.trans (describe_le hp))).bind fun _ =>
    (keeps_loadRdata hF env sc (hnums _)).bind fun _ =>
    (keeps_loadName hF env sc p.1 fun _ p r => hname p r.rdata).bind fun _ => keeps_pure _

theorem keeps_rdataMx (env : DecEnv) (sc : Sect) (h : RrHdr) {w : ℕ} (hw : lo ≤ w) (start : ℕ)
    (rc : ℤ) : Keeps F (rdataMx env sc h w start rc) := by
  rw [rdataMx_eq]
  refine keeps_rdataNumsName hF env sc h _ _ _ ?_ ?_ hw start rc
  · exact fun _ _ => rfl
  · exact fun _ _ => List.length_set

theorem keeps_loadTxt (sc : Sect) (str : Bytes) : Keeps F (loadTxt sc str) :=
  keeps_get.bind fun _ =>
    (keeps_when _ fun _ => keeps_exit_fail hF).bind fun _ =>
    (keeps_loadStr hF sc str fun _ _ _ => by exact List.length_set).bind fun _ =>
    keeps_modifySlot hF sc fun _ _ => by rfl

theorem keeps_txtLoop (env : DecEnv) (sc : Sect) (rdEnd k : ℕ) {w : ℕ} (hw : lo ≤ w) (rc : ℤ) :
    Keeps F (txtLoop env sc rdEnd k w rc) := by
  induction k generalizing w rc with
  | zero => exact keeps_pure _
  | succ k ih =>
    refine keeps_getOffset.bind fun off => ?_
    split
    · exact (keeps_strField hF env _ _ rdEnd hw rc fun str =>
        keeps_loadTxt hF sc str).bind_of_result
        fun _ p _ hp => ih (hw.trans (strField_le hp)) p.2
    · exact keeps_pure _

theorem keeps_rdataTxt (env : DecEnv) (sc : Sect) {w : ℕ} (hw : lo ≤ w) (start rdEnd : ℕ)
    (rc : ℤ) : Keeps F (rdataTxt env sc w start rdEnd rc) :=
  (keeps_txtLoop hF env sc rdEnd _ hw rc).bind fun _ => keeps_pure _

theorem keeps_rdataSrv (env : DecEnv) (sc : Sect) (h : RrHdr) {w : ℕ} (hw : lo ≤ w) (start : ℕ)
    (rc : ℤ) : Keeps F (rdataSrv env sc h w start rc) := by
  rw [rdataSrv_eq]
  refine keeps_rdataNumsName hF env sc h _ _ _ ?_ ?_ hw start rc
  · exact fun _ _ => rfl
  · exact fun _ _ => List.length_set

theorem keeps_rdataSkip (h : RrHdr) (rc : ℤ) : Keeps F (rdataSkip h rc) :=
  (keeps_advance hF _).bind fun _ => keeps_pure _

/-- The end of an `OPT` record: its fields are noted and the rest is skipped. -/
def noteOpt (h : RrHdr) (rdEnd : ℕ) (s : DecState) : DecState :=
  { s with
    dec.gotEdns := true
    dec.udpSize := h.rrClass.toNat
    dec.extRcode := optExtRcode h.ttl
    dec.ednsVer := optVersion h.ttl
    dec.dnssecOk := optDoBit h.ttl
    dec.offset := rdEnd }

theorem keeps_loadOpt (sc : Sect) (h : RrHdr) : Keeps F (loadOpt sc h) :=
  (keeps_modifySlot hF sc fun _ _ => by rfl).bind fun _ => (keeps_msgStr hF 0).bind fun t =>
    keeps_loadStr hF sc t fun _ _ _ => by rfl

theorem keeps_rdataOpt (env : DecEnv) (sc : Sect) (h : RrHdr) {w : ℕ} (hw : lo ≤ w) (rdEnd : ℕ)
    (hjump : ∀ s, F.keep s (noteOpt h rdEnd s)) : Keeps F (rdataOpt env sc h w rdEnd) :=
  (keeps_when _ fun _ => keeps_retErr hF _ _ _).bind fun _ =>
    (keeps_when _ fun _ => keeps_loadOpt hF sc h).bind fun _ =>
    keeps_get.bind fun _ =>
    (keeps_snprintf hF hw _).bind fun _ => (keeps_modify hjump).bind fun _ => keeps_pure _

theorem keeps_rrRdata (env : DecEnv) (sc : Sect) (h : RrHdr) {w : ℕ} (hw : lo ≤ w)
    (start rdEnd : ℕ) (rc : ℤ)
    (hjump : rrKind h.rrType = .opt → ∀ s, F.keep s (noteOpt h rdEnd s)) :
    Keeps F (rrRdata env sc h w start rdEnd rc) := by
  unfold rrRdata
  cases hk : rrKind h.rrType with
  | a => exact keeps_rdataA hF env sc h hw start rc
  | ns => exact keeps_rdataName hF env sc _ (fun _ _ _ => by rfl) hw
  | cname => exact keeps_rdataName hF env sc _ (fun _ _ _ => by rfl) hw
  | soa => exact keeps_rdataSoa hF env sc hw rdEnd rc
  | ptr => exact keeps_rdataName hF env sc _ (fun _ _ _ => by rfl) hw
  | hinfo => exact keeps_rdataHinfo hF env sc h hw rdEnd rc
  | mx => exact keeps_rdataMx hF env sc h hw start rc
  | txt => exact keeps_rdataTxt hF env sc hw start rdEnd rc
  | aaaa => exact keeps_rdataAaaa hF env sc h hw start rc
  | srv => exact keeps_rdataSrv hF env sc h hw start rc
  | opt => exact keeps_rdataOpt hF env sc h hw rdEnd (hjump hk)
  | any => exact keeps_rdataSkip hF h rc
  | other => exact keeps_rdataSkip hF h rc

theorem keeps_rrSlot (env : DecEnv) (sc : Sect) : Keeps F (rrSlot env sc) :=
  keeps_get.bind fun _ => keeps_when _ fun _ => keeps_exit_fail hF

theorem keeps_rrName (env : DecEnv) (sc : Sect) (h0 : lo = 0) : Keeps F (rrName env sc) :=
  (keeps_nameField hF env _ h0.le).bind fun _ =>
    (keeps_loadName hF env sc 0 fun _ _ _ => by rfl).bind fun _ => keeps_pure _

theorem keeps_rrHdr (env : DecEnv) (sc : Sect) : Keeps F (rrHdr env sc) :=
  keeps_getOffset.bind fun _ =>
    (keeps_when _ fun _ => keeps_retErr hF _ _ _).bind fun _ =>
    (keeps_readBytes hF env _ _).bind fun _ =>
    (keeps_advance hF 10).bind fun _ =>
    (keeps_when _ fun _ => keeps_modifySlot hF sc fun _ _ => by rfl).bind fun _ => keeps_pure _

omit hF in
theorem keeps_dnsWmsg (hF : ∀ s e, F.keep s { s with dec.emsg := e }) (env : DecEnv)
    (text : Bytes) : Keeps F (dnsWmsg env text) := by
  refine .of_ok fun s => ?_
  unfold dnsWmsg
  dsimp only
  split_ifs
  · exact ⟨_, _, rfl, hF s ⟨s.dec.emsg.text, _⟩⟩
  · exact ⟨_, _, rfl, hF s ⟨_, []⟩⟩

theorem keeps_nameText (out : RdataOut) : Keeps F (nameText out) := by
  unfold nameText
  split
  · exact keeps_pure _
  · exact keeps_msgStr hF 0

theorem keeps_descText (desc : Desc) : Keeps F (descText desc) := by
  cases desc with
  | empty => exact keeps_pure _
  | scratch w => exact keeps_msgStr hF w
  | unknown => exact keeps_pure _

omit hF in
theorem keeps_rrReport (hF : Allows lo F) (env : DecEnv) (sc : Sect) (h : RrHdr)
    (out : RdataOut) : Keeps F (rrReport env sc h out) := by
  unfold rrReport
  split
  · exact (keeps_nameText hF.toAllowsFill out).bind fun _ =>
      (keeps_descText hF.toAllowsFill out.desc).bind fun _ => keeps_dnsWmsg hF.report env _
  · exact keeps_pure _

/-- The statements of a record decode between the check for a free slot and the count. -/
def rrFill (env : DecEnv) (sc : Sect) : Dec (RrHdr × RdataOut) := do
  let n ← rrName env sc
  let h ← rrHdr env sc
  let start ← getOffset
  let rdEnd := (start+h.rdlen.toNat) % 2^16
  when (env.pkt.length < rdEnd) (retErr .rr .rdata DnsEc.etrunc.code)
  let out ← rrRdata env sc h (n+1) start rdEnd n
  let off ← getOffset
  when (off ≠ rdEnd) (retErr .rr .rdata DnsEc.erdatalen.code)
  pure (h, out)

omit hF in
theorem rrBody_eq (env : DecEnv) (sc : Sect) : rrBody env sc =
    (rrSlot env sc >>= fun _ => rrFill env sc >>= fun p =>
      when env.loadMsg (modify fun s => { s with msg := s.msg.countUp sc }) >>= fun _ =>
      rrReport env sc p.1 p.2) := by
  simp only [rrBody, rrFill, bind_assoc, pure_bind]

theorem keeps_rrFill (env : DecEnv) (sc : Sect) (h0 : lo = 0)
    (hjump : ∀ h rdEnd s, F.keep s (noteOpt h rdEnd s)) : Keeps F (rrFill env sc) :=
  (keeps_rrName hF env sc h0).bind fun _ =>
    (keeps_rrHdr hF env sc).bind fun h =>
    keeps_getOffset.bind fun _ =>
    (keeps_when _ fun _ => keeps_retErr hF _ _ _).bind fun _ =>
    (keeps_rrRdata hF env sc h (by omega) _ _ _ fun _ => hjump h _).bind fun _ =>
    keeps_getOffset.bind fun _ =>
    (keeps_when _ fun _ => keeps_retErr hF _ _ _).bind fun _ => keeps_pure _

omit hF in
theorem keeps_rrBody (hF : Allows lo F) (env : DecEnv) (sc : Sect) (h0 : lo = 0)
    (hjump : ∀ h rdEnd s, F.keep s (noteOpt h rdEnd s))
    (hcount : ∀ s, F.keep s { s with msg := s.msg.countUp sc }) : Keeps F (rrBody env sc) := by
  rw [rrBody_eq]
  exact (keeps_rrSlot hF.toAllowsFill env sc).bind fun _ =>
    (keeps_rrFill hF.toAllowsFill env sc h0 hjump).bind fun p =>
    (keeps_when _ fun _ => keeps_modify hcount).bind fun _ => keeps_rrReport hF env sc p.1 p.2

end Frames

end DnsPkt.RecordFrame
