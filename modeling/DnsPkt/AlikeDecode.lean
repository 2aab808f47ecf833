import DnsPkt.AlikeBuild
import DnsPkt.AcceptedRun

/-!
# Loading one packet into two messages

The decoder keeps its own state apart from the message that it loads. Loaded
into two messages that look alike, a packet takes the decoder through the
same states, and the messages look alike afterwards. The one place where the
loader reads what a slot held before is the array of `TXT` strings.
-/

set_option autoImplicit false

namespace DnsPkt.AlikeDecode
open DnsPkt.CheckedRun DnsPkt.CheckedRun.Run DnsPkt.PairedRun DnsPkt.Octets DnsPkt.Protocol
open DnsPkt.MessageStore DnsPkt.MessageSlots DnsPkt.MessageBuild DnsPkt.RecordView
open DnsPkt.NameDecoder DnsPkt.RecordDecoder DnsPkt.MessageDecoder DnsPkt.RecordRun
open DnsPkt.RecordEntry DnsPkt.RecordFrame DnsPkt.MessageHistory
open DnsPkt.AlikeMessages DnsPkt.AlikeBuild

def Both (R : DnsMsg → DnsMsg → Prop) (s t : DecState) : Prop := s.dec = t.dec ∧ R s.msg t.msg

theorem Both.imp {R E : DnsMsg → DnsMsg → Prop} (h : ∀ m m', R m m' → E m m') (s t : DecState)
    (hs : Both R s t) : Both E s t := ⟨hs.1, h _ _ hs.2⟩

structure Alongside {α : Type} (x : Dec α) : Prop where
  steps : ∀ {R E : DnsMsg → DnsMsg → Prop}, (∀ m m', R m m' → E m m') →
    Steps (Both E) (Both R) (Both R) x

section Alongside

variable {α β : Type}

theorem alongside_pure (a : α) : Alongside (pure a : Dec α) := ⟨fun _ => steps_pure a⟩

theorem Alongside.bind {x : Dec α} {f : α → Dec β} (hx : Alongside x)
    (hf : ∀ a, Alongside (f a)) : Alongside (x >>= f) :=
  ⟨fun h => (hx.steps h).bind fun a => (hf a).steps h⟩

theorem alongside_when (p : Prop) [Decidable p] {x : Dec Unit} (hx : Alongside x) :
    Alongside (when p x) := ⟨fun h => steps_when p fun _ => hx.steps h⟩

theorem alongside_exit (e : ℤ) : Alongside (exit e : Dec α) :=
  ⟨fun h => steps_exit (Both.imp h) e⟩

theorem alongside_modify {f : DecState → DecState} {g : DnsDec → DnsDec}
    (hf : ∀ s, f s = ⟨g s.dec, s.msg⟩) : Alongside (modify f : Dec Unit) :=
  ⟨fun _ => steps_modify fun s t h => by
    rw [hf, hf]
    exact ⟨congrArg g h.1, h.2⟩⟩

theorem alongside_getOffset : Alongside getOffset := by
  refine ⟨fun _ => ⟨fun {s t} h => ?_⟩⟩
  unfold getOffset
  rw [h.1]
  exact .ok h

theorem alongside_readBytes (env : DecEnv) (i n : ℕ) : Alongside (readBytes env i n) := by
  refine ⟨fun _ => ⟨fun {s t} h => ?_⟩⟩
  unfold readBytes
  cases pktSlice env.pkt i n with
  | ok b => exact .ok h
  | error f => exact .fault f

theorem alongside_moveTo (off : DnsDec → ℕ) :
    Alongside (modify fun s => { s with dec.offset := off s.dec } : Dec Unit) :=
  alongside_modify (g := fun d => { d with offset := off d }) fun _ => rfl

theorem alongside_advance (n : ℕ) : Alongside (advance n) :=
  alongside_moveTo fun d => d.offset+n

theorem paired_retErr {R E : DnsMsg → DnsMsg → Prop} (hE : ∀ m m', R m m' → E m m')
    {s t : DecState} (h : Both R s t) {Q : α → DecState → DecState → Prop}
    (group field : DnsLocation) (ec : ℤ) :
    Paired Q (Both E) ((retErr group field ec : Dec α) s) ((retErr group field ec : Dec α) t) := by
  obtain ⟨d, m⟩ := s
  obtain ⟨d', m'⟩ := t
  obtain ⟨rfl, hm⟩ : d = d' ∧ _ := h
  unfold retErr dnsDecErr
  by_cases hfull : dnsMaxEmsg ≤ d.errs.length
  · rw [if_pos hfull, if_pos hfull]
    exact .exit ⟨rfl, hE _ _ hm⟩
  · rw [if_neg hfull, if_neg hfull]
    exact .exit ⟨rfl, hE _ _ hm⟩

theorem alongside_retErr (group field : DnsLocation) (ec : ℤ) :
    Alongside (retErr group field ec : Dec α) :=
  ⟨fun hE => ⟨fun h => paired_retErr hE h group field ec⟩⟩

theorem alongside_putMsg (w : ℕ) (b : Bytes) : Alongside (putMsg w b) := by
  refine ⟨fun _ => ⟨fun {s t} h => ?_⟩⟩
  obtain ⟨d, m⟩ := s
  obtain ⟨d', m'⟩ := t
  obtain ⟨rfl, hm⟩ : d = d' ∧ _ := h
  unfold putMsg
  split_ifs
  · exact .ok ⟨rfl, hm⟩
  · exact .ok ⟨rfl, hm⟩
  · exact .fault _

theorem alongside_msgStr (w : ℕ) : Alongside (msgStr w) := by
  refine ⟨fun _ => ⟨fun {s t} h => ?_⟩⟩
  unfold msgStr
  rw [h.1]
  split_ifs
  · exact .ok h
  · exact .fault _

theorem alongside_snprintf (w : ℕ) (text : Bytes) : Alongside (snprintf w text) :=
  (alongside_putMsg w _).bind fun _ => alongside_pure _

theorem alongside_describe (env : DecEnv) (w : ℕ) (rc : ℤ) (text : Bytes) :
    Alongside (describe env w rc text) := by
  unfold describe
  split
  · exact (alongside_snprintf w text).bind fun _ => alongside_pure _
  · exact alongside_pure _

theorem alongside_fixLabel (n w : ℕ) : Alongside (fixLabel n w) := by
  unfold fixLabel dnsAddStr
  split
  · exact alongside_pure _
  · exact (alongside_when _ (alongside_exit _)).bind fun _ =>
      (alongside_putMsg w _).bind fun _ => alongside_pure _

theorem alongside_decodeNameAt (env : DecEnv) (w : ℕ) : Alongside (decodeNameAt env w) := by
  refine ⟨fun hE => ⟨fun {s t} h => ?_⟩⟩
  unfold decodeNameAt
  rw [h.1]
  cases decodeName env.pkt t.dec.offset (sizeLeft w) with
  | error f => exact .fault f
  | ok r =>
    have hput : Alongside (putMsg w r.out >>= fun _ =>
        modify (fun s => { s with dec.offset := r.offset }) >>= fun _ => pure r.result) :=
      (alongside_putMsg w _).bind fun _ => (alongside_moveTo fun _ => r.offset).bind
        fun _ => alongside_pure _
    exact (hput.steps hE).run h

theorem alongside_nameField (env : DecEnv) (field : DnsLocation) (w : ℕ) :
    Alongside (nameField env field w) := by
  refine (alongside_decodeNameAt env w).bind fun r => ?_
  cases r with
  | error ec => exact alongside_retErr _ _ _
  | ok n => exact alongside_fixLabel n w

theorem alongside_describeVals (env : DecEnv) (vals : List (String × UInt32)) (w : ℕ) (rc : ℤ) :
    Alongside (describeVals env vals w rc) := by
  induction vals generalizing w rc with
  | nil => exact alongside_pure _
  | cons v rest ih => exact (alongside_describe env w rc _).bind fun p => ih p.1 p.2

theorem alongside_describeIp (env : DecEnv) (start w : ℕ) (rc : ℤ) :
    Alongside (describeIp env start w rc) := by
  unfold describeIp
  split_ifs
  · exact alongside_pure _
  · exact (alongside_readBytes env _ _).bind fun _ => (alongside_putMsg w _).bind fun _ =>
      alongside_pure _
  · exact alongside_pure _

end Alongside

/-- Takes slots related by `S` to slots related by `T`. -/
abbrev Fills {α : Type} (sc : Sect) (S T : SlotRel) (x : Dec α) : Prop :=
  Steps (Both Alike) (Both (Filling sc S)) (Both (Filling sc T)) x

section Fills

variable {sc : Sect} {α : Type} {ty : UInt16} {env : DecEnv}

theorem Alongside.fills {x : Dec α} (hx : Alongside x) {S : SlotRel} : Fills sc S S x :=
  hx.steps fun _ _ h => h.alike

section Slot

variable {S T : SlotRel} {f : ℕ → Ptr → DnsRr Ptr → DnsRr Ptr}

theorem fills_modifySlot (hf : Writes S T f) :
    Fills sc S T (RecordDecoder.modifySlot sc fun base => f base .null) :=
  steps_modify fun _ _ h => ⟨h.1, hf.write (.inl rfl) h.2⟩

theorem fills_storeInto (hf : Writes S T f) (str : Bytes) :
    Fills sc S T (storeInto sc str f) := by
  refine ⟨fun {s t} h => ?_⟩
  rcases h.2.stored str with ⟨hl, hr⟩ | ⟨off, st, st', hl, hr, hv, hfill⟩
  · rw [storeInto_full hl, storeInto_full hr]
    exact .ok ⟨h.1, hf.write (.inl rfl) h.2⟩
  · rw [storeInto_run hl, storeInto_run hr]
    exact .ok ⟨h.1, hf.write hv hfill⟩

theorem fills_fail (p : Prop) [Decidable p] : Fills sc S S (when p (exit (-1)) : Dec Unit) :=
  (alongside_when p (alongside_exit _)).fills

theorem fills_loadStr (hf : Writes S T f) (str : Bytes) : Fills sc S T (loadStr sc str f) :=
  (fills_storeInto hf str).bind fun _ => fills_fail _

theorem fills_onLoad (hl : env.loadMsg = true) {x : Dec Unit} (hx : Fills sc S T x) :
    Fills sc S T (when env.loadMsg x) := by
  rwa [when_pos hl]

theorem fills_loadName (hl : env.loadMsg = true) (hf : Writes S T f) (w : ℕ) :
    Fills sc S T (loadName env sc w f) :=
  fills_onLoad hl ((alongside_msgStr w).fills.bind fun _ => fills_loadStr hf _)

end Slot

variable {S T U : RdataRel}

theorem fills_loadRdata (hl : env.loadMsg = true) {g : Rdata Ptr → Rdata Ptr}
    (hg : RdWrites S T fun _ _ => g) :
    Fills sc (OfType ty S) (OfType ty T) (loadRdata env sc g) :=
  fills_onLoad hl (fills_modifySlot (hg.onRdata ty))

theorem fills_retErr {S : SlotRel} (p : Prop) [Decidable p] (group field : DnsLocation) (ec : ℤ) :
    Fills sc S S (when p (retErr group field ec) : Dec Unit) :=
  (alongside_when p (alongside_retErr _ _ _)).fills

theorem fills_rdataA (hl : env.loadMsg = true) (hk : rrKind ty = .a) (h : RrHdr) (w start : ℕ)
    (rc : ℤ) : Fills sc (OfType ty Any) (OfType ty (RdAlike ty)) (rdataA env sc h w start rc) :=
  (fills_retErr _ _ _ _).bind fun _ =>
    (fills_onLoad hl ((alongside_readBytes env _ _).fills.bind fun _ =>
      fills_loadRdata hl (rdWrites_a hk _))).bind fun _ =>
    (alongside_advance 4).fills.bind fun _ => (alongside_describeIp env _ _ _).fills

theorem fills_rdataAaaa (hl : env.loadMsg = true) (hk : rrKind ty = .aaaa) (h : RrHdr)
    (w start : ℕ) (rc : ℤ) :
    Fills sc (OfType ty Any) (OfType ty (RdAlike ty)) (rdataAaaa env sc h w start rc) :=
  (fills_retErr _ _ _ _).bind fun _ =>
    (alongside_advance 16).fills.bind fun _ =>
    (fills_onLoad hl ((alongside_readBytes env _ _).fills.bind fun _ =>
      fills_loadRdata hl (rdWrites_aaaa hk _))).bind fun _ =>
    (alongside_describeIp env _ _ _).fills

theorem fills_rdataName (hl : env.loadMsg = true) {g : ℕ → Ptr → Rdata Ptr → Rdata Ptr}
    (hg : RdWrites S T g) (field : DnsLocation) (w : ℕ) :
    Fills sc (OfType ty S) (OfType ty T) (rdataName env sc field g w) :=
  (alongside_nameField env field w).fills.bind fun _ =>
    (fills_loadName hl (hg.onRdata ty) w).bind fun _ => steps_pure _

theorem fills_rdataSoa (hl : env.loadMsg = true) (hk : rrKind ty = .soa) (w rdEnd : ℕ) (rc : ℤ) :
    Fills sc (OfType ty Any) (OfType ty (RdAlike ty)) (rdataSoa env sc w rdEnd rc) := by
  unfold rdataSoa
  refine (alongside_describe env w rc _).fills.bind fun p1 => ?_
  refine (alongside_nameField env _ _).fills.bind fun n1 => ?_
  refine (fills_loadName hl (rdWrites_mname.onRdata ty) _).bind fun _ => ?_
  refine (alongside_describe env _ rc _).fills.bind fun p2 => ?_
  refine (alongside_nameField env _ _).fills.bind fun n2 => ?_
  refine (fills_onLoad hl ((alongside_msgStr _).fills.bind fun _ =>
    (fills_storeInto (rdWrites_rname.onRdata ty) _).bind fun _ => steps_pure _)).bind fun _ => ?_
  refine alongside_getOffset.fills.bind fun off => ?_
  refine (fills_retErr _ _ _ _).bind fun _ => ?_
  refine (alongside_readBytes env _ _).fills.bind fun b => ?_
  refine (alongside_advance 20).fills.bind fun _ => ?_
  refine (alongside_describeVals env _ _ _).fills.bind fun _ => ?_
  exact (fills_loadRdata hl (rdWrites_soa hk _ _ _ _ _)).bind fun _ => steps_pure _

theorem fills_strField (hl : env.loadMsg = true) {S T : SlotRel} {load : Bytes → Dec Unit}
    (hload : ∀ str, Fills sc S T (load str)) (field : DnsLocation) (label : Bytes) (rdEnd w : ℕ)
    (rc : ℤ) : Fills sc S T (strField env field label rdEnd w rc load) :=
  alongside_getOffset.fills.bind fun _ =>
    (alongside_readBytes env _ _).fills.bind fun _ =>
    (alongside_advance 1).fills.bind fun _ =>
    (fills_retErr _ _ _ _).bind fun _ =>
    (alongside_readBytes env _ _).fills.bind fun str =>
    (alongside_describe env _ _ _).fills.bind fun _ =>
    (fills_onLoad hl (hload str)).bind fun _ => (alongside_advance _).fills.bind fun _ =>
      steps_pure _

theorem fills_rdataHinfo (hl : env.loadMsg = true) (hk : rrKind ty = .hinfo) (h : RrHdr)
    (w rdEnd : ℕ) (rc : ℤ) :
    Fills sc (OfType ty Any) (OfType ty (RdAlike ty)) (rdataHinfo env sc h w rdEnd rc) :=
  (fills_retErr _ _ _ _).bind fun _ =>
    (fills_strField hl (fun _ => fills_loadStr (rdWrites_cpu.onRdata ty) _) _ _ _ _ _).bind fun _ =>
    alongside_getOffset.fills.bind fun _ =>
    (fills_retErr _ _ _ _).bind fun _ =>
    (fills_strField hl (fun _ => fills_loadStr ((rdWrites_hinfo hk).onRdata ty) _) _ _ _ _ _).bind
      fun _ => steps_pure _

theorem fills_rdataNumsName {S : RdataRel} {setNums : Bytes → Rdata Ptr → Rdata Ptr}
    {setName : Ptr → Rdata Ptr → Rdata Ptr} (hl : env.loadMsg = true) (h : RrHdr)
    (field : DnsLocation) (len : ℕ) (text : Bytes → Bytes)
    (hnums : ∀ b, RdWrites Any S fun _ _ => setNums b)
    (hname : RdWrites S (RdAlike ty) fun _ => setName) (w start : ℕ) (rc : ℤ) :
    Fills sc (OfType ty Any) (OfType ty (RdAlike ty))
      (rdataNumsName env sc h field len text setNums setName w start rc) :=
  (fills_retErr _ _ _ _).bind fun _ =>
    (alongside_readBytes env _ _).fills.bind fun _ =>
    (alongside_advance len).fills.bind fun _ =>
    (alongside_describe env _ _ _).fills.bind fun _ =>
    (alongside_nameField env _ _).fills.bind fun _ =>
    (fills_loadRdata hl (hnums _)).bind fun _ =>
    (fills_loadName hl (hname.onRdata ty) _).bind fun _ => steps_pure _

theorem fills_rdataMx (hl : env.loadMsg = true) (hk : rrKind ty = .mx) (h : RrHdr) (w start : ℕ)
    (rc : ℤ) : Fills sc (OfType ty Any) (OfType ty (RdAlike ty)) (rdataMx env sc h w start rc) := by
  rw [rdataMx_eq]
  exact fills_rdataNumsName hl h _ _ _ (fun _ => rdWrites_pref _) (rdWrites_mx hk) w start rc

theorem fills_rdataSrv (hl : env.loadMsg = true) (hk : rrKind ty = .srv) (h : RrHdr)
    (w start : ℕ) (rc : ℤ) :
    Fills sc (OfType ty Any) (OfType ty (RdAlike ty)) (rdataSrv env sc h w start rc) := by
  rw [rdataSrv_eq]
  exact fills_rdataNumsName hl h _ _ _ (fun _ => rdWrites_srvVals _ _ _) (rdWrites_srv hk) w
    start rc

theorem fills_rdataSkip {S : SlotRel} (h : RrHdr) (rc : ℤ) : Fills sc S S (rdataSkip h rc) :=
  (alongside_advance _).fills.bind fun _ => steps_pure _

theorem loadTxt_eq (str : Bytes) (s : DecState) : loadTxt sc str s =
    (when (dnsMaxTxt ≤ (slot s.msg sc).rdata.txtNumStr) (exit (-1)) >>= fun _ =>
      loadStr sc str (onRdata fun _ p r =>
        { r with txtStr := r.txtStr.set (slot s.msg sc).rdata.txtNumStr p }) >>= fun _ =>
      RecordDecoder.modifySlot sc fun _ r =>
        { r with rdata := { r.rdata with txtNumStr := r.rdata.txtNumStr+1 } }) s := rfl

theorem fills_loadTxt (str : Bytes) :
    Fills sc (OfType ty TxtAlike) (OfType ty TxtAlike) (loadTxt sc str) := by
  refine ⟨fun {s t} h => ?_⟩
  rw [loadTxt_eq, loadTxt_eq, ← Filling.num h.2]
  by_cases hfull : dnsMaxTxt ≤ (slot s.msg sc).rdata.txtNumStr
  · rw [bind_when_pos hfull, bind_when_pos hfull]
    exact .exit ⟨h.1, h.2.alike⟩
  rw [bind_when_neg hfull, bind_when_neg hfull]
  have hput := (rdWrites_txtPut (Nat.lt_of_not_le hfull)).onRdata ty
  refine ((fills_loadStr hput str).run ⟨h.1, Filling.counted h.2⟩).bind fun _ _ _ hn => ?_
  exact (fills_modifySlot ((rdWrites_txtCount _).onRdata ty)).run hn

theorem fills_txtLoop (hl : env.loadMsg = true) (rdEnd k w : ℕ) (rc : ℤ) :
    Fills sc (OfType ty TxtAlike) (OfType ty TxtAlike) (txtLoop env sc rdEnd k w rc) := by
  induction k generalizing w rc with
  | zero => exact steps_pure _
  | succ k ih =>
    refine alongside_getOffset.fills.bind fun off => ?_
    split
    · exact (fills_strField hl fills_loadTxt _ _ _ _ _).bind fun p => ih p.1 p.2
    · exact steps_pure _

/-- The relation of two slots holds behind a weaker one. -/
theorem Filling.weaken {S T : SlotRel} (hST : ∀ V r r', S V r r' → T V r r') (m m' : DnsMsg)
    (h : Filling sc S m m') : Filling sc T m m' :=
  ⟨h.alike, h.free, fun V hV => hST V _ _ (h.slots V hV)⟩

theorem fills_rdataTxt (hl : env.loadMsg = true) (hk : rrKind ty = .txt) (w start rdEnd : ℕ)
    (rc : ℤ) : Fills sc (OfType ty TxtAlike) (OfType ty (RdAlike ty))
      (rdataTxt env sc w start rdEnd rc) :=
  ((fills_txtLoop hl rdEnd _ w rc).bind fun _ => steps_pure _).imp fun _ _ h =>
    ⟨h.1, Filling.weaken (fun _ _ _ h => ⟨h.1, h.2.rdAlike hk⟩) _ _ h.2⟩

/-- All of `opt` is written, and the owner name once more. -/
theorem writes_opt (hk : rrKind ty = .opt) (h : RrHdr) :
    Writes (OfType ty Any) (OfType ty (RdAlike ty)) fun _ _ r =>
      { r with
        rdata := (r.rdata.setOpt h.rrClass (optExtRcode h.ttl) (optVersion h.ttl)
          (optDoBit h.ttl)).setOptZBits (optZBits h.ttl)
        rrClass := 0 } where
  keeps _ _ _ := rfl
  rel _ _ _ _ _ _ hr := by
    refine ⟨⟨hr.1.name, hr.1.valid, hr.1.type_l, hr.1.type_r, rfl, hr.1.ttl⟩, ?_⟩
    constructor <;> simp [rdNums, rdPtrs, rdNames, rdStrs, hk, Rdata.setOpt, Rdata.head,
      Rdata.setOptZBits]

theorem writes_owner (S : RdataRel) :
    Writes (OfType ty S) (OfType ty S) fun _ p r => { r with name := p } where
  keeps _ _ _ := rfl
  rel _ _ _ _ _ hp h := ⟨⟨rfl, hp, h.1.type_l, h.1.type_r, h.1.rrClass, h.1.ttl⟩, h.2⟩

theorem fills_rdataOpt (hl : env.loadMsg = true) (hk : rrKind ty = .opt) (h : RrHdr)
    (w rdEnd : ℕ) :
    Fills sc (OfType ty Any) (OfType ty (RdAlike ty)) (rdataOpt env sc h w rdEnd) := by
  have hload : Fills sc (OfType ty Any) (OfType ty (RdAlike ty)) (loadOpt sc h) :=
    (fills_modifySlot (writes_opt hk h)).bind fun _ => (alongside_msgStr 0).fills.bind fun _ =>
      fills_loadStr (writes_owner _) _
  refine (fills_retErr _ _ _ _).bind fun _ => (fills_onLoad hl hload).bind fun _ => ?_
  refine ⟨fun {s t} hs => paired_get_bind ?_⟩
  rw [hs.1]
  refine (Alongside.fills ?_).run hs
  refine (alongside_snprintf w _).bind fun n => Alongside.bind ?_ fun _ => alongside_pure _
  exact alongside_modify (g := fun d => { d with
    gotEdns := true
    udpSize := h.rrClass.toNat
    extRcode := RecordDecoder.optExtRcode h.ttl
    ednsVer := optVersion h.ttl
    dnssecOk := RecordDecoder.optDoBit h.ttl
    offset := rdEnd }) fun _ => rfl

def LoadReads (rrType : UInt16) : RdataRel :=
  match rrKind rrType with
  | .txt => TxtAlike
  | _ => Any

theorem fills_rrRdata (hl : env.loadMsg = true) (h : RrHdr) (w start rdEnd : ℕ) (rc : ℤ) :
    Fills sc (OfType h.rrType (LoadReads h.rrType)) (OfType h.rrType (RdAlike h.rrType))
      (rrRdata env sc h w start rdEnd rc) := by
  unfold rrRdata LoadReads
  cases hk : rrKind h.rrType with
  | a => exact fills_rdataA hl hk h w start rc
  | ns => exact fills_rdataName hl (rdWrites_ns hk) _ w
  | cname => exact fills_rdataName hl (rdWrites_cname hk) _ w
  | soa => exact fills_rdataSoa hl hk w rdEnd rc
  | ptr => exact fills_rdataName hl (rdWrites_ptr hk) _ w
  | hinfo => exact fills_rdataHinfo hl hk h w rdEnd rc
  | mx => exact fills_rdataMx hl hk h w start rc
  | txt => exact fills_rdataTxt hl hk w start rdEnd rc
  | aaaa => exact fills_rdataAaaa hl hk h w start rc
  | srv => exact fills_rdataSrv hl hk h w start rc
  | opt => exact fills_rdataOpt hl hk h w rdEnd
  | any | other =>
    exact (fills_rdataSkip h rc).imp fun _ _ hs => ⟨hs.1, Filling.weaken
      (fun _ _ _ h => ⟨h.1, rdAlike_other (by simp [hk]) _ _⟩) _ _ hs.2⟩

end Fills

/-- A `TXT` record at the offset finds a slot that counts no strings. -/
def TxtFresh (pkt : Bytes) (v : Sect × DecState) : Prop :=
  ∀ text e, NameAt pkt v.2.dec.offset text e → rrKind (hdrAt pkt e).rrType = .txt →
    (slot v.2.msg v.1).rdata.txtNumStr = 0

def RecordReads (pkt : Bytes) (off : ℕ) : RdataRel := fun V r r' =>
  ∀ text e, NameAt pkt off text e → LoadReads (hdrAt pkt e).rrType V r r'

section Record

variable {env : DecEnv} {sc : Sect}

theorem recordReads_fresh {s t : DecState} (h : Both Alike s t) (hs : TxtFresh env.pkt (sc, s))
    (ht : TxtFresh env.pkt (sc, t)) (V : Ptr → Prop) : RecordReads env.pkt s.dec.offset V
      (slot s.msg sc).rdata (slot t.msg sc).rdata := by
  intro text e hat
  unfold LoadReads
  have hl := sized_slot h.2.sized_l sc
  have hr := sized_slot h.2.sized_r sc
  cases hk : rrKind (hdrAt env.pkt e).rrType with
  | txt => exact txtAlike_free ⟨hs text e hat hk, hl⟩ ⟨ht text e (h.1 ▸ hat) hk, hr⟩
  | _ => trivial

theorem loadStr_dec {str : Bytes} {f : ℕ → Ptr → DnsRr Ptr → DnsRr Ptr} {s t : DecState}
    {u : Unit} (h : loadStr sc str f s = .ok u t) : t.dec = s.dec := by
  cases hst : msgStoreStr s.msg.store str with
  | none =>
    rw [loadStr_full hst] at h
    cases h
  | some p =>
    rw [loadStr_run hst] at h
    cases h
    rfl

theorem rrName_ok (hl : env.loadMsg = true) {n : ℕ} {s t : DecState}
    (h : rrName env sc s = .ok n t) : ∃ text, NameAt env.pkt s.dec.offset text t.dec.offset := by
  obtain ⟨k, s1, h1, h⟩ := (bind_ok _ _ _ _ _).mp h
  obtain ⟨_, s2, h2, h⟩ := (bind_ok _ _ _ _ _).mp h
  cases h
  obtain ⟨text, e, hat, -, -, rfl⟩ := nameField_ok (Nat.zero_le _) h1
  rw [loadName, when_pos hl] at h2
  obtain ⟨str, s3, h3, h2⟩ := (bind_ok _ _ _ _ _).mp h2
  obtain ⟨rfl, -⟩ := msgStr_ok h3
  rw [loadStr_dec h2]
  exact ⟨text, hat⟩

theorem fills_rrName (hl : env.loadMsg = true) (S : RdataRel) :
    Fills sc (Bare S) (Named S) (rrName env sc) :=
  (alongside_nameField env _ 0).fills.bind fun _ =>
    (fills_loadName hl (writes_name S) 0).bind fun _ => steps_pure _

theorem writes_hdr (S : RdataRel) (hdr : RrHdr) :
    Writes (Named S) (OfType hdr.rrType S) fun _ _ => setHdr hdr where
  keeps _ _ _ := rfl
  rel _ _ _ _ _ _ h := ⟨⟨h.1.1, h.1.2, rfl, rfl, rfl, rfl⟩, h.2⟩

theorem paired_rrHdr (hl : env.loadMsg = true) {S : RdataRel} {s t : DecState}
    (h : Both (Filling sc (Named S)) s t) :
    Paired (fun hdr s' t' => hdr = hdrAt env.pkt s.dec.offset ∧
      Both (Filling sc (OfType hdr.rrType S)) s' t') (Both Alike)
      (rrHdr env sc s) (rrHdr env sc t) := by
  by_cases hshort : env.pkt.length < s.dec.offset+10
  · unfold rrHdr
    rw [bind_of_ok (getOffset_run s), bind_of_ok (getOffset_run t), ← h.1,
      bind_when_pos hshort, bind_when_pos hshort]
    exact (paired_retErr (Q := fun _ _ _ => False) (fun _ _ h => h.alike) h _ _ _).bind
      fun _ _ _ hf => hf.elim
  · rw [rrHdr_run (Nat.le_of_not_lt hshort), rrHdr_run (h.1 ▸ Nat.le_of_not_lt hshort), ← h.1,
      if_pos hl, if_pos hl]
    refine .ok ⟨rfl, ?_, ?_⟩
    · simp only [moveTo, h.1]
    · exact (writes_hdr S (hdrAt env.pkt s.dec.offset)).write (.inl rfl) h.2

theorem paired_rrFill (hl : env.loadMsg = true) {s t : DecState} (h : Both Alike s t)
    (hfree : (s.msg.sect sc).count < dnsMaxRr) (hs : TxtFresh env.pkt (sc, s))
    (ht : TxtFresh env.pkt (sc, t)) :
    Paired (fun _ => Both (Filling sc RrAlike)) (Both Alike) (rrFill env sc s)
      (rrFill env sc t) := by
  have hbare : Both (Filling sc (Bare (RecordReads env.pkt s.dec.offset))) s t :=
    ⟨h.1, h.2, hfree, fun V _ => recordReads_fresh h hs ht V⟩
  refine ((fills_rrName hl _).run hbare).and_run.bind fun n s1 t1 h1 => ?_
  obtain ⟨hnamed, hok, -⟩ := h1
  obtain ⟨text, hat⟩ := rrName_ok hl hok
  refine (paired_rrHdr hl hnamed).bind fun hdr s2 t2 h2 => ?_
  obtain ⟨rfl, hfixed⟩ := h2
  have hreads : Both (Filling sc (OfType _ (LoadReads (hdrAt env.pkt s1.dec.offset).rrType)))
    s2 t2 :=
    ⟨hfixed.1, Filling.weaken (fun _ _ _ hr => ⟨hr.1, hr.2 text _ hat⟩) _ _ hfixed.2⟩
  refine (alongside_getOffset.fills.run hreads).bind fun start s3 t3 h3 => ?_
  refine ((fills_retErr _ _ _ _).run h3).bind fun _ s4 t4 h4 => ?_
  refine ((fills_rrRdata hl _ _ _ _ _).run h4).bind fun out s5 t5 h5 => ?_
  refine (alongside_getOffset.fills.run h5).bind fun off s6 t6 h6 => ?_
  refine ((fills_retErr _ _ _ _).run h6).bind fun _ s7 t7 h7 => ?_
  exact .ok ⟨h7.1, Filling.weaken (fun _ _ _ hr => ⟨_, hr⟩) _ _ h7.2⟩

theorem alongside_dnsWmsg (env : DecEnv) (text : Bytes) : Alongside (dnsWmsg env text) := by
  refine ⟨fun _ => ⟨fun {s t} h => ?_⟩⟩
  obtain ⟨d, m⟩ := s
  obtain ⟨d', m'⟩ := t
  obtain ⟨rfl, hm⟩ : d = d' ∧ _ := h
  unfold dnsWmsg
  dsimp only
  split_ifs
  · exact .ok ⟨rfl, hm⟩
  · exact .ok ⟨rfl, hm⟩

theorem alongside_rrReport (hdr : RrHdr) (out : RdataOut) :
    Alongside (rrReport env sc hdr out) := by
  unfold rrReport
  split
  · refine Alongside.bind ?_ fun name => Alongside.bind ?_ fun desc => alongside_dnsWmsg env _
    · unfold nameText
      split
      · exact alongside_pure _
      · exact alongside_msgStr 0
    · cases out.desc with
      | empty => exact alongside_pure _
      | scratch w => exact alongside_msgStr w
      | unknown => exact alongside_pure _
  · exact alongside_pure _

theorem Alongside.alike {α : Type} {x : Dec α} (hx : Alongside x) :
    Steps (Both Alike) (Both Alike) (Both Alike) x := hx.steps fun _ _ h => h

theorem paired_rrBody (hl : env.loadMsg = true) {s t : DecState} (h : Both Alike s t)
    (hs : TxtFresh env.pkt (sc, s)) (ht : TxtFresh env.pkt (sc, t)) :
    Paired (fun _ => Both Alike) (Both Alike) (rrBody env sc s) (rrBody env sc t) := by
  rw [rrBody_eq]
  by_cases hfull : dnsMaxRr ≤ (s.msg.sect sc).count
  · rw [bind_of_exit (rrSlot_full hl hfull), bind_of_exit (rrSlot_full hl (h.2.count sc ▸ hfull))]
    exact .exit h
  have hfree := Nat.lt_of_not_le hfull
  rw [bind_of_ok (rrSlot_run fun _ => hfree), bind_of_ok (rrSlot_run fun _ => h.2.count sc ▸ hfree)]
  refine (paired_rrFill hl h hfree hs ht).bind fun p s1 t1 h1 => ?_
  rw [when_pos hl]
  refine Paired.bind (paired_modify (Q := fun _ => Both Alike) ⟨h1.1, h1.2.count⟩)
    fun _ s2 t2 h2 => ?_
  exact (alongside_rrReport p.1 p.2).alike.run h2

end Record

section Message

variable {env : DecEnv}

theorem paired_loadQd {s t : DecState} (h : Both Alike s t) (hfree : s.msg.qdLen+1 ≤ dnsMaxQd)
    (qtype qclass : UInt16) : Paired (fun _ => Both Alike) (Both Alike)
      (loadQd qtype qclass s) (loadQd qtype qclass t) := by
  have hzero : s.msg.qdLen = 0 := Nat.lt_one_iff.mp hfree
  refine ((alongside_msgStr 0).alike.run h).and_run.bind fun str s1 t1 h1 => ?_
  obtain ⟨h1, hl, hr⟩ := h1
  obtain ⟨rfl, -⟩ := msgStr_ok hl
  obtain ⟨rfl, -⟩ := msgStr_ok hr
  refine paired_get_bind ?_
  rcases msgStoreStr_alike h.2.len h.2.log str with ⟨hl, hr⟩ | ⟨off, st, st', hl, hr, hlen, hlog⟩
  · rw [hl, hr]
    refine Paired.bind (paired_modify (Q := fun _ => Both Alike) ⟨h.1, ?_⟩)
      fun _ s2 t2 h2 => .exit h2
    exact h.2.setQd s1.msg.qd_fits t1.msg.qd_fits h.2.qdLen (by omega)
  · rw [hl, hr]
    refine paired_modify ⟨h.1, ?_⟩
    have hfree' : t1.msg.qdLen+1 ≤ dnsMaxQd := h.2.qdLen ▸ hfree
    simp only [addQd, dif_pos hfree, dif_pos hfree']
    exact (h.2.setStore hl hr hlen hlog).setQd hfree hfree' (congrArg Nat.succ h.2.qdLen)
      fun _ => ⟨rfl, valid_new hl⟩

theorem alongside_qdFill (env : DecEnv) : Alongside (qdFill env) := by
  refine Alongside.bind ?_ fun _ => Alongside.bind ?_ fun _ => alongside_pure _
  · refine (alongside_decodeNameAt env 0).bind fun r => ?_
    cases r with
    | error ec => exact alongside_retErr _ _ _
    | ok n => exact alongside_pure _
  · exact alongside_getOffset.bind fun _ => (alongside_when _ (alongside_retErr _ _ _)).bind
      fun _ => (alongside_readBytes env _ _).bind fun _ => (alongside_advance 4).bind
      fun _ => alongside_pure _

theorem paired_qdBody (hl : env.loadMsg = true) {s t : DecState} (h : Both Alike s t) :
    Paired (fun _ => Both Alike) (Both Alike) (qdBody env s) (qdBody env t) := by
  rw [qdBody_eq]
  unfold qdSlot
  by_cases hfull : env.loadMsg = true ∧ dnsMaxQd ≤ s.msg.qdLen
  · have hfull' : env.loadMsg = true ∧ dnsMaxQd ≤ t.msg.qdLen := h.2.qdLen ▸ hfull
    rw [bind_assoc, bind_of_ok (get_run s), bind_of_ok (get_run t), bind_when_pos hfull,
      bind_when_pos hfull']
    exact .exit h
  have hfull' : ¬ (env.loadMsg = true ∧ dnsMaxQd ≤ t.msg.qdLen) := h.2.qdLen ▸ hfull
  rw [bind_assoc, bind_of_ok (get_run s), bind_of_ok (get_run t), bind_when_neg hfull,
    bind_when_neg hfull']
  have hfree : s.msg.qdLen+1 ≤ dnsMaxQd := by
    have : ¬ dnsMaxQd ≤ s.msg.qdLen := fun hle => hfull ⟨hl, hle⟩
    omega
  have hboth : Both (fun m m' => Alike m m' ∧ m.qdLen+1 ≤ dnsMaxQd) s t := ⟨h.1, h.2, hfree⟩
  refine (((alongside_qdFill env).steps fun _ _ h => h.1).run hboth).bind fun p s1 t1 h1 => ?_
  rw [when_pos hl]
  refine (paired_loadQd ⟨h1.1, h1.2.1⟩ h1.2.2 _ _).bind fun _ s2 t2 h2 => ?_
  have hlast : Alongside (if env.needEmsg then msgStr 0 >>= fun name =>
      dnsWmsg env (qdLine name p.2.1 p.2.2) else pure (p.1 : ℤ)) := by
    split
    · exact (alongside_msgStr 0).bind fun _ => alongside_dnsWmsg env _
    · exact alongside_pure _
  exact hlast.alike.run h2

theorem steps_decodeHdr (env : DecEnv) :
    Steps (Both Alike) (Both Alike) (Both Alike) (decodeHdr env) := by
  have hflags (flags : UInt16) : Alongside (checkFlags flags) := by
    have hpush (group field : DnsLocation) (ec : ℤ) : Alongside (pushErr group field ec) := by
      refine alongside_modify (g := fun d => if dnsMaxEmsg ≤ d.errs.length then d
        else { d with errs := d.errs ++ [⟨group, field, ec⟩] }) fun s => ?_
      unfold dnsDecErr
      split <;> rfl
    unfold checkFlags
    split
    · exact alongside_when _ (hpush _ _ _)
    · exact alongside_when _ (hpush _ _ _)
  refine steps_call ?_
  unfold hdrBody
  refine (alongside_when _ (alongside_retErr _ _ _)).alike.bind fun _ => ?_
  refine (alongside_readBytes env _ _).alike.bind fun b => ?_
  refine (steps_modify (J := Both Alike) fun s t h => ⟨h.1, h.2.setHdr _⟩).bind fun _ => ?_
  refine Alongside.alike ?_
  refine (alongside_advance _).bind fun _ => (alongside_when _ (alongside_exit _)).bind fun _ => ?_
  refine (alongside_modify (g := fun d => { d with hdr := dnsHdrDecode b }) fun _ => rfl).bind
    fun _ => ?_
  exact (hflags _).bind fun _ => alongside_dnsWmsg env _

theorem steps_orReturn {x : Dec ℤ} {I : DecState → DecState → Prop}
    (hx : Steps (Both Alike) I (Both Alike) x) :
    Steps (Both Alike) I (Both Alike) (orReturn x) :=
  hx.bind fun _ => (alongside_when _ (alongside_exit _)).alike

theorem paired_rows {entry : Dec ℤ} {C : DecState → Prop}
    (hentry : ∀ s t, Both Alike s t → C s → C t →
      Paired (fun _ => Both Alike) (Both Alike) (entry s) (entry t))
    (loc : DnsLocation) (n : ℕ) {s t : DecState} (h : Both Alike s t)
    (hs : ∀ v ∈ visits (rowStep entry loc) 0 n s, C v.2)
    (ht : ∀ v ∈ visits (rowStep entry loc) 0 n t, C v.2) :
    Paired (fun _ => Both Alike) (Both Alike) (rows entry loc n s) (rows entry loc n t) := by
  refine paired_call (P := fun _ => Both Alike) ?_ fun _ _ _ h => h
  refine (paired_loop (C := C) ?_ 0 n h hs ht).bind fun _ _ _ h => .ok h
  intro i s t hst hs ht
  exact (hentry s t hst hs ht).bind fun rc s1 t1 h1 =>
    (alongside_when _ (alongside_retErr _ _ _)).alike.run h1

theorem steps_decodeQd (hl : env.loadMsg = true) :
    Steps (Both Alike) (Both Alike) (Both Alike) (decodeQd env) := by
  refine ⟨fun {s t} h => paired_get_bind ?_⟩
  rw [h.2.hdr]
  refine paired_rows (C := fun _ => True) (fun s t hst _ _ => ?_) _ _ h (fun _ _ => trivial)
    fun _ _ => trivial
  exact paired_call (paired_qdBody hl hst) fun _ _ _ h => h

theorem paired_decodeSect (hl : env.loadMsg = true) (sc : Sect) {s t : DecState}
    (h : Both Alike s t) (hs : ∀ v ∈ sectVisits env sc s, TxtFresh env.pkt v)
    (ht : ∀ v ∈ sectVisits env sc t, TxtFresh env.pkt v) :
    Paired (fun _ => Both Alike) (Both Alike) (decodeSect env sc s) (decodeSect env sc t) := by
  unfold sectVisits at hs ht
  rw [List.forall_mem_map] at hs ht
  refine paired_get_bind ?_
  rw [h.2.hdr] at hs ⊢
  refine paired_rows (C := fun s => TxtFresh env.pkt (sc, s)) (fun s t hst hs ht => ?_) _ _ h hs ht
  exact paired_call (paired_rrBody hl hst hs ht) fun _ _ _ h => h

theorem paired_decodeSects (hl : env.loadMsg = true) (scs : List Sect) {s t : DecState}
    (h : Both Alike s t) (hs : ∀ v ∈ sectsVisits env scs s, TxtFresh env.pkt v)
    (ht : ∀ v ∈ sectsVisits env scs t, TxtFresh env.pkt v) :
    Paired (fun _ => Both Alike) (Both Alike) (decodeSects env scs s) (decodeSects env scs t) := by
  induction scs generalizing s t with
  | nil => exact .ok h
  | cons sc rest ih =>
    unfold sectsVisits at hs ht
    rw [List.forall_mem_append] at hs ht
    have hsect : Paired (fun _ => Both Alike) (Both Alike) (orReturn (decodeSect env sc) s)
        (orReturn (decodeSect env sc) t) :=
      (paired_decodeSect hl sc h hs.1 ht.1).bind fun _ _ _ h =>
        (alongside_when _ (alongside_exit _)).alike.run h
    refine hsect.and_run.bind fun u s1 t1 h1 => ?_
    obtain ⟨h1, hrs, hrt⟩ := h1
    refine ih h1 ?_ ?_
    · simpa only [hrs] using hs.2
    · simpa only [hrt] using ht.2

theorem alongside_sizeCheck (env : DecEnv) : Alongside (sizeCheck env) := by
  refine ⟨fun hE => ⟨fun {s t} h => paired_get_bind ?_⟩⟩
  rw [h.1]
  have hrun : Alongside (if env.needEmsg ∧ t.dec.udpSize < env.pkt.length then
      dnsWmsg env (sizeLine env.pkt.length t.dec.udpSize) else pure 0) := by
    split
    · exact alongside_dnsWmsg env _
    · exact alongside_pure _
  exact (hrun.steps hE).run h

/-- Loading a packet into two messages. All that is asked of them is the size of their arrays:
the load starts with a reset. -/
theorem paired_decodeMsg (hl : env.loadMsg = true) {m m' : DnsMsg} (hm : Sized m) (hm' : Sized m')
    (hs : ∀ v ∈ recordVisits env m, TxtFresh env.pkt v)
    (ht : ∀ v ∈ recordVisits env m', TxtFresh env.pkt v) :
    Paired (fun _ => Both Alike) (Both Alike) (decodeMsg env (initState m))
      (decodeMsg env (initState m')) := by
  have hfront : Paired (fun _ => Both Alike) (Both Alike) (decodeFront env (initState m))
      (decodeFront env (initState m')) := by
    refine Paired.bind (paired_modify (Q := fun _ => Both Alike) ⟨rfl, alike_reset hm hm'⟩)
      fun _ s t h => ?_
    exact ((steps_orReturn (steps_decodeHdr env)).run h).bind fun _ s1 t1 h1 =>
      (steps_orReturn (steps_decodeQd hl)).run h1
  refine paired_call (P := fun _ => Both Alike) ?_ fun _ _ _ h => h
  refine hfront.and_run.bind fun u s t h => ?_
  obtain ⟨h, hrs, hrt⟩ := h
  simp only [recordVisits, hrs] at hs
  simp only [recordVisits, hrt] at ht
  exact (paired_decodeSects hl _ h hs ht).bind fun _ s1 t1 h1 =>
    (alongside_sizeCheck env).alike.run h1

end Message

end DnsPkt.AlikeDecode
