import DnsPkt.MessageReuse

/-!
# Records that are copied into a message

A call that returns zero appends one record to a section and leaves all others
as they were. The record is a copy of the source except in four places: the
responsible person of an `SOA` record and both strings of an `HINFO` record are
stored without a check, a `TXT` record is appended to the strings that its slot
counts, and the bits behind the flag of an `OPT` record are not copied.
-/

set_option autoImplicit false

namespace DnsPkt.FaithfulAdd
open DnsPkt.CheckedRun DnsPkt.CheckedRun.Run DnsPkt.Octets DnsPkt.Protocol
open DnsPkt.MessageStore DnsPkt.MessageSlots DnsPkt.MessageBuild DnsPkt.MessageHistory
open DnsPkt.AlikeMessages DnsPkt.MessageReuse

/-- The pointer shows the source string. A null argument reads as the empty string. -/
def Copied (st : NameStore) (p : Ptr) (s : Str) : Prop := st.str p = some s.bytes

def txtSource (src : Rdata Str) : List Str :=
  (List.range src.txtNumStr).map fun i => src.txtStr.getD i none

def RdCopied (st : NameStore) (rrType : UInt16) (src : Rdata Str) (r : Rdata Ptr) : Prop :=
  match rrKind rrType with
  | .a => r.a = src.a
  | .ns => Copied st r.nsName src.nsName
  | .cname => Copied st r.cname src.cname
  | .soa => Copied st r.soaMname src.soaMname ∧ Copied st r.soaRname src.soaRname ∧
      r.soaSerial = src.soaSerial ∧ r.soaRefresh = src.soaRefresh ∧ r.soaRetry = src.soaRetry ∧
      r.soaExpire = src.soaExpire ∧ r.soaMinTtl = src.soaMinTtl
  | .ptr => Copied st r.ptrName src.ptrName
  | .hinfo => Copied st r.hinfoCpuStr src.hinfoCpuStr ∧ Copied st r.hinfoOsStr src.hinfoOsStr
  | .mx => r.mxPref = src.mxPref ∧ Copied st r.mxName src.mxName
  | .txt => List.Forall₂ (Copied st) (txtPtrs r) (txtSource src)
  | .aaaa => r.aaaa = src.aaaa
  | .srv => r.srvPrior = src.srvPrior ∧ r.srvWeight = src.srvWeight ∧ r.srvPort = src.srvPort ∧
      Copied st r.srvName src.srvName
  | .opt => r.optUdpSize = src.optUdpSize ∧ r.optExtRcode = src.optExtRcode ∧
      r.optEdnsVer = src.optEdnsVer ∧ r.optDoBit = src.optDoBit ∧ r.optZBits = src.optZBits
  | .any | .other => True

structure RrCopied (st : NameStore) (src : DnsRr Str) (r : DnsRr Ptr) : Prop where
  name : Copied st r.name src.name
  rrType : r.rrType = src.rrType
  rrClass : r.rrClass = src.rrClass
  ttl : r.ttl = src.ttl
  rdata : RdCopied st src.rrType src.rdata r.rdata

/-- One record more in a section, and no other change. A pointer that was stored since the
last reset shows what it showed before. -/
structure Grown (m t : DnsMsg) (sc : Sect) (src : DnsRr Str) : Prop where
  last : ∃ r, records t sc = records m sc ++ [r] ∧ RrCopied t.store src r
  others : ∀ sc', sc' ≠ sc → records t sc' = records m sc'
  strings : ∀ sc', ∀ r ∈ records m sc', ∀ p ∈ rrPtrs r, Valid m.store p →
    t.store.str p = m.store.str p
  head : t.hdr = m.hdr ∧ t.qd = m.qd ∧ t.qdLen = m.qdLen

def Faithful (m t : DnsMsg) (code : ℤ) (src : DnsRr Str) : Prop :=
  ∃ sc, sectOfCode code = some sc ∧ Grown m t sc src

def StoreFits (st : NameStore) (strs : List Str) : Prop :=
  (∀ s ∈ strs, s.bytes.length ≤ dnsNameMaxstr) ∧
    st.len+(strs.map fun s => s.bytes.length+1).sum ≤ dnsMaxPdusize

/-- What the copy of the RDATA needs of the store and the slot that it goes to. -/
def RdCopyable (st : NameStore) (r : Rdata Ptr) (src : DnsRr Str) : Prop :=
  match rrKind src.rrType with
  | .soa => StoreFits st [src.name, src.rdata.soaMname, src.rdata.soaRname]
  | .hinfo => StoreFits st [src.name, src.rdata.hinfoCpuStr, src.rdata.hinfoOsStr]
  | .txt => r.txtNumStr = 0
  | .opt => r.optZBits = src.rdata.optZBits
  | _ => True

def Copyable (m : DnsMsg) (code : ℤ) (src : DnsRr Str) : Prop :=
  ∀ sc, sectOfCode code = some sc → RdCopyable m.store (slot m sc).rdata src

theorem copied_of_stored {st : NameStore} {p : Ptr} {s : Str} (h : Stored st p s.bytes) :
    Copied st p s := by
  rw [Copied, h.str, cstr_of_no_zero _ (zero_notMem_bytes s)]

theorem not_copied_null (st : NameStore) (s : Str) : ¬ Copied st .null s := by
  intro h
  cases h

theorem storeFits_one {st : NameStore} {s : Str} :
    StoreFits st [s] ↔ (msgStoreStr st s.bytes).isSome := by
  rw [msgStoreStr_isSome]
  simp [StoreFits]
  omega

theorem storeFits_cons {st st' : NameStore} {s : Str} {off : ℕ} (rest : List Str)
    (h : msgStoreStr st s.bytes = some (off, st')) :
    StoreFits st (s :: rest) ↔ StoreFits st' rest := by
  obtain ⟨-, -, hlen, hle⟩ := msgStoreStr_some h
  rw [StoreFits, StoreFits, hlen]
  simp only [List.forall_mem_cons, List.map_cons, List.sum_cons]
  constructor
  · rintro ⟨⟨-, h1⟩, h2⟩
    exact ⟨h1, by omega⟩
  · rintro ⟨h1, h2⟩
    exact ⟨⟨hle, h1⟩, by omega⟩

section Puts

variable {st st' st2 : NameStore} {s a b : Str} {p q : Ptr}

/-- What was stored is copied, whatever is stored after it. -/
theorem copied_iff (h : Puts st s.bytes p st') (hl : Later st' st2) :
    Copied st2 p s ↔ StoreFits st [s] := by
  rw [storeFits_one]
  rcases h with ⟨off, h, rfl⟩ | ⟨h, rfl, -⟩
  · rw [h]
    exact iff_of_true (copied_of_stored (hl.keep _ _ (msgStoreStr_some h).1)) rfl
  · rw [h]
    exact iff_of_false (not_copied_null st2 s) (by simp)

theorem copied_of_ne_null (h : Puts st s.bytes p st') (hp : p ≠ .null) (hl : Later st' st2) :
    Copied st2 p s := copied_of_stored (hl.keep _ _ (h.stored hp))

theorem puts_cons (h : Puts st s.bytes p st') (hp : p ≠ .null) (rest : List Str) :
    StoreFits st (s :: rest) ↔ StoreFits st' rest := by
  rcases h with ⟨off, h, -⟩ | ⟨-, rfl, -⟩
  · exact storeFits_cons rest h
  · exact absurd rfl hp

/-- Two strings are both copied when they fit together. -/
theorem copied_pair (ha : Puts st a.bytes p st') (hb : Puts st' b.bytes q st2) :
    Copied st2 p a ∧ Copied st2 q b ↔ StoreFits st [a, b] := by
  rw [copied_iff ha hb.later, copied_iff hb (.refl _)]
  by_cases hp : p = .null
  · have hno : ¬ StoreFits st [a] := by
      rw [← copied_iff ha (.refl _), hp]
      exact not_copied_null st' a
    refine iff_of_false (fun h => hno h.1) fun h => hno ?_
    have hle : (([a] : List Str).map fun s => s.bytes.length+1).sum ≤
        (([a, b] : List Str).map fun s => s.bytes.length+1).sum := by simp
    exact ⟨fun s hs => h.1 s (by simp_all), by have := h.2; omega⟩
  · have hone : StoreFits st [a] := by
      rw [← copied_iff ha (.refl _)]
      exact copied_of_ne_null ha hp (.refl _)
    rw [puts_cons ha hp [b]]
    exact and_iff_right hone

end Puts

/-- The slot and the store that a call leaves behind its RDATA, with the RDATA copied exactly
when it could be. -/
def Filled (m : DnsMsg) (sc : Sect) (st : NameStore) (r : DnsRr Ptr) (ty : UInt16)
    (src : Rdata Str) (able : Prop) (t : DnsMsg) : Prop :=
  ∃ st' rd, t = stage m sc st' { r with rdata := rd } ∧ Later st st' ∧
    (RdCopied st' ty src rd ↔ able)

section Statements

variable {m t : DnsMsg} {sc : Sect} {st : NameStore} {r : DnsRr Ptr} {src : DnsRr Str} {u : Unit}

/-- A string that is checked is copied. -/
theorem filled_name {s : Str} {f : ℕ → Ptr → Rdata Ptr → Rdata Ptr} {r' : DnsRr Ptr}
    {ty : UInt16} {rd : Rdata Str} {able : Prop} (hr : ∃ rd', r' = { r with rdata := rd' })
    (hf : ∀ p st', Copied st' p s → (RdCopied st' ty rd (f m.base p r'.rdata) ↔ able))
    (h : addName sc s f (stage m sc st r') = .ok u t) : Filled m sc st r ty rd able t := by
  obtain ⟨rd', rfl⟩ := hr
  obtain ⟨p, st', hp, hn, rfl⟩ := addName_stage h
  exact ⟨st', _, rfl, hp.later, hf p st' (copied_of_ne_null hp hn (.refl _))⟩

theorem filled_soa {st0 : NameStore} {p0 : Ptr} (hown : Puts st0 src.name.bytes p0 st)
    (hn0 : p0 ≠ .null) (hk : rrKind src.rrType = .soa)
    (h : addRdata sc src (stage m sc st r) = .ok u t) :
    Filled m sc st r src.rrType src.rdata
      (StoreFits st0 [src.name, src.rdata.soaMname, src.rdata.soaRname]) t := by
  simp only [addRdata, hk] at h
  obtain ⟨_, m1, h1, h⟩ := (bind_ok _ _ _ _ _).mp h
  obtain ⟨p, st1, hp, hn, rfl⟩ := addName_stage h1
  obtain ⟨q, st2, hq, h2⟩ := addNameUnchecked_stage m sc st1
    { r with rdata := Rdata.setSoaMname m.base p r.rdata } src.rdata.soaRname
    (fun _ => Rdata.setSoaRname)
  rw [bind_of_ok h2, modifyRdata_stage] at h
  cases h
  refine ⟨st2, _, rfl, hp.later.trans hq.later, ?_⟩
  rw [puts_cons hown hn0, ← copied_pair hp hq]
  simp only [RdCopied, hk]
  exact ⟨fun h => ⟨h.1, h.2.1⟩, fun h => ⟨h.1, h.2, rfl, rfl, rfl, rfl, rfl⟩⟩

theorem filled_hinfo {st0 : NameStore} {p0 : Ptr} (hown : Puts st0 src.name.bytes p0 st)
    (hn0 : p0 ≠ .null) (hk : rrKind src.rrType = .hinfo)
    (h : addRdata sc src (stage m sc st r) = .ok u t) :
    Filled m sc st r src.rrType src.rdata
      (StoreFits st0 [src.name, src.rdata.hinfoCpuStr, src.rdata.hinfoOsStr]) t := by
  simp only [addRdata, hk] at h
  obtain ⟨p, st1, hp, h1⟩ := addNameUnchecked_stage m sc st r src.rdata.hinfoCpuStr
    Rdata.setHinfoCpuStr
  obtain ⟨q, st2, hq, h2⟩ := addNameUnchecked_stage m sc st1
    { r with rdata := Rdata.setHinfoCpuStr m.base p r.rdata } src.rdata.hinfoOsStr
    (fun _ => Rdata.setHinfoOsStr)
  rw [bind_of_ok h1, h2] at h
  cases h
  refine ⟨st2, _, rfl, hp.later.trans hq.later, ?_⟩
  rw [puts_cons hown hn0, ← copied_pair hp hq]
  simp only [RdCopied, hk]
  exact Iff.rfl

/-- The strings of the source stand behind those that the slot counted. -/
theorem filled_txt (hcount : (m.sect sc).count < dnsMaxRr)
    (hlen : r.rdata.txtStr.length = dnsMaxTxt) (hk : rrKind src.rrType = .txt)
    (h : addRdata sc src (stage m sc st r) = .ok u t) :
    Filled m sc st r src.rrType src.rdata (r.rdata.txtNumStr = 0) t := by
  simp only [addRdata, hk] at h
  obtain ⟨ps, st', rd, hlater, rfl, hptrs, hstored, -⟩ := addTxt_stage hcount hlen h
  refine ⟨st', rd, rfl, hlater, ?_⟩
  simp only [RdCopied, hk, hptrs]
  constructor
  · intro hall
    have h1 := hall.length_eq
    have h2 : ps.length = (txtSource src.rdata).length := hstored.length_eq
    simp only [List.length_append, txtPtrs, List.length_map, List.length_range] at h1
    omega
  · intro hzero
    rw [show txtPtrs r.rdata = [] by simp [txtPtrs, hzero], List.nil_append]
    exact hstored.imp fun p s hs => copied_of_stored hs

theorem addRdata_filled {st0 : NameStore} {p0 : Ptr} (hcount : (m.sect sc).count < dnsMaxRr)
    (hlen : r.rdata.txtStr.length = dnsMaxTxt) (hown : Puts st0 src.name.bytes p0 st)
    (hn0 : p0 ≠ .null) (h : addRdata sc src (stage m sc st r) = .ok u t) :
    Filled m sc st r src.rrType src.rdata (RdCopyable st0 r.rdata src) t := by
  unfold RdCopyable
  cases hk : rrKind src.rrType with
  | soa => exact filled_soa hown hn0 hk h
  | hinfo => exact filled_hinfo hown hn0 hk h
  | txt => exact filled_txt hcount hlen hk h
  | a | aaaa =>
    simp only [addRdata, hk, modifyRdata_stage] at h
    cases h
    exact ⟨st, _, rfl, .refl _, by simp [RdCopied, hk, Rdata.setA, Rdata.setAaaa, Rdata.head,
      Rdata.flagWord, Rdata.word]⟩
  | opt =>
    simp only [addRdata, hk, modifyRdata_stage] at h
    cases h
    exact ⟨st, _, rfl, .refl _, by simp [RdCopied, hk, Rdata.setOpt, Rdata.head]⟩
  | any | other =>
    simp only [addRdata, hk] at h
    cases h
    exact ⟨st, r.rdata, rfl, .refl _, by simp [RdCopied, hk]⟩
  | ns | cname | ptr =>
    simp only [addRdata, hk] at h
    refine filled_name ⟨_, rfl⟩ (fun p st' hp => ?_) h
    simp only [RdCopied, hk]
    exact iff_of_true hp trivial
  | mx =>
    simp only [addRdata, hk] at h
    rw [bind_of_ok (modifyRdata_stage _)] at h
    refine filled_name ⟨_, rfl⟩ (fun p st' hp => ?_) h
    simp only [RdCopied, hk]
    exact iff_of_true ⟨rfl, hp⟩ trivial
  | srv =>
    simp only [addRdata, hk] at h
    rw [bind_of_ok (modifyRdata_stage _)] at h
    refine filled_name ⟨_, rfl⟩ (fun p st' hp => ?_) h
    simp only [RdCopied, hk]
    exact iff_of_true ⟨rfl, rfl, rfl, hp⟩ trivial

end Statements

/-- What was stored since the last reset stays in sight. -/
theorem str_of_later {st st' : NameStore} (hi : Intact st) (hl : Later st st') {p : Ptr}
    (hp : Valid st p) : st'.str p = st.str p := by
  rcases hp with rfl | ⟨e, he, rfl⟩
  · rfl
  · have hst := hi e he
    rw [hst.str, (hl.keep _ _ hst).str]

theorem grown_iff {m t : DnsMsg} {sc : Sect} {src : DnsRr Str} {rc : ℤ} (hi : Intact m.store)
    (hs : Sized m) (h : dnsSectAddRr sc src m = .ok rc t) :
    Grown m t sc src ↔ RdCopyable m.store (slot m sc).rdata src := by
  obtain ⟨rfl, hcount, p, st, u, hp, hn, rfl, hadd⟩ := dnsSectAddRr_front h
  obtain ⟨st', rd, rfl, hlater, hiff⟩ :=
    addRdata_filled (r := { slot m sc with
      name := p, rrType := src.rrType, rrClass := src.rrClass, ttl := src.ttl })
      hcount (sized_slot hs sc) hp hn hadd
  have hrecs := countUp_records st' { slot m sc with
    name := p, rrType := src.rrType, rrClass := src.rrClass, ttl := src.ttl, rdata := rd } hcount
  rw [← hiff]
  constructor
  · intro hg
    obtain ⟨r, hr, hcopy⟩ := hg.last
    rw [hrecs] at hr
    obtain rfl := List.singleton_inj.mp (List.append_cancel_left hr)
    simpa using hcopy.rdata
  · intro hcopy
    refine ⟨⟨_, hrecs, ?_, rfl, rfl, rfl, ?_⟩, fun sc' hne => ?_, fun sc' r hr q hq hv => ?_, ?_⟩
    · simpa using copied_of_ne_null hp hn hlater
    · simpa using hcopy
    · rw [countUp_records_ne hne, records_stage]
    · rw [countUp_store, stage_store]
      exact str_of_later hi (hp.later.trans hlater) hv
    · rw [hdr_countUp, (countUp_qd _ _).1, (countUp_qd _ _).2]
      exact ⟨stage_hdr _ _ _ _, stage_qd _ _ _ _, stage_qdLen _ _ _ _⟩

theorem faithful_iff {m t : DnsMsg} {code : ℤ} {src : DnsRr Str} (hi : Intact m.store)
    (hs : Sized m) (h : dnsAddRr m code (some src) = (0, t)) :
    Faithful m t code src ↔ Copyable m code src := by
  unfold dnsAddRr at h
  unfold Faithful Copyable
  cases hsc : sectOfCode code with
  | none => simp [hsc] at h
  | some sc =>
    rw [hsc] at h
    dsimp only at h
    simp only [Option.some.injEq, exists_eq_left', forall_eq']
    cases hrun : dnsSectAddRr sc src m with
    | ok rc t' =>
      rw [hrun] at h
      obtain rfl : t' = t := congrArg Prod.snd h
      exact grown_iff hi hs hrun
    | exit rc t' =>
      rw [hrun] at h
      have hrc : rc = 0 := congrArg Prod.fst h
      have := (dnsSectAddRr_exit hrun).1
      omega
    | fault c => exact c.elim

/-- Every string of every record was stored since the last reset. -/
def Owned (m : DnsMsg) : Prop := ∀ sc, ∀ r ∈ records m sc, ∀ p ∈ rrPtrs r, Valid m.store p

theorem owned_of_alike {m : DnsMsg} (h : Alike m m) : Owned m := by
  intro sc r hr p hp
  have hself : RrAlike (Valid m.store) r r := List.forall₂_same.mp (h.recs sc) r hr
  obtain ⟨ty, hhead, hrd⟩ := hself
  rcases List.mem_cons.mp hp with rfl | hp
  · exact hhead.valid
  · rw [hhead.type_l] at hp
    exact hrd.valid p hp

theorem alike_zero (base : ℕ) : Alike (zeroMsg base) (zeroMsg base) :=
  alike_reset (encodable_zero base).sized (encodable_zero base).sized

def Adds : Call → Prop
  | .init _ _ | .addQdn _ _ _ | .addRr _ _ => True
  | .reset | .decode _ => False

def Untouched (m : DnsMsg) : Prop :=
  ∀ sc, ∀ r ∈ (m.sect sc).slots.drop (m.sect sc).count, r = zeroRr .null

theorem untouched_zero (base : ℕ) : Untouched (zeroMsg base) := by
  intro sc r hr
  have hmem := List.mem_of_mem_drop hr
  cases sc <;> exact List.eq_of_mem_replicate hmem

theorem Untouched.slot {m : DnsMsg} (h : Untouched m) (sc : Sect) :
    slot m sc = zeroRr .null := by
  rw [MessageSlots.slot, List.getD_eq_getElem?_getD]
  cases hr : (m.sect sc).slots[(m.sect sc).count]? with
  | none => rfl
  | some r =>
    refine h sc r (List.mem_of_getElem? (i := 0) ?_)
    rw [List.getElem?_drop]
    exact hr

theorem Untouched.fresh {m : DnsMsg} (h : Untouched m) {c : Call} (hc : Adds c) :
    FreshCall m c := by
  cases c with
  | addRr code src =>
    cases src with
    | none => trivial
    | some src =>
      intro sc _ _
      rw [SlotFresh, h.slot]
      exact ⟨fun _ => rfl, fun _ => rfl⟩
  | init id flags => trivial
  | addQdn qname qtype qclass => trivial
  | reset => cases hc
  | decode pkt => cases hc

theorem untouched_addRr {m t : DnsMsg} {code : ℤ} {src : Option (DnsRr Str)} (hm : Untouched m)
    (h : dnsAddRr m code src = (0, t)) : Untouched t := by
  unfold dnsAddRr at h
  cases hsc : sectOfCode code with
  | none => simp [hsc] at h
  | some sc =>
    rw [hsc] at h
    cases src with
    | none =>
      cases h
      exact hm
    | some src =>
      dsimp only at h
      cases hrun : dnsSectAddRr sc src m with
      | ok rc t' =>
        rw [hrun] at h
        obtain rfl : t' = t := congrArg Prod.snd h
        obtain ⟨-, hcount, p, st, u, -, -, rfl, hadd⟩ := dnsSectAddRr_front hrun
        obtain ⟨st', r, -, rfl⟩ := (keeps_addRdata (stageFrame_fills m sc) src).ok hadd _ _ rfl
        exact free_push hm hcount
      | exit rc t' =>
        rw [hrun] at h
        have hrc : rc = 0 := congrArg Prod.fst h
        have := (dnsSectAddRr_exit hrun).1
        omega
      | fault c => exact c.elim

theorem untouched_call {m t : DnsMsg} {c : Call} (hm : Untouched m) (hc : Adds c)
    (h : c.run m = some (0, t)) : Untouched t := by
  cases c with
  | init id flags =>
    cases h
    exact hm
  | addQdn qname qtype qclass =>
    have hsect (sc : Sect) : (dnsAddQdn m qname qtype qclass).2.sect sc = m.sect sc := by
      unfold dnsAddQdn
      split
      · split <;> cases sc <;> rfl
      · rfl
    rw [show t = (dnsAddQdn m qname qtype qclass).2 from
      (congrArg Prod.snd (Option.some.inj h)).symm]
    intro sc r hr
    rw [hsect] at hr
    exact hm sc r hr
  | addRr code src => exact untouched_addRr hm (Option.some.inj h)
  | reset => cases hc
  | decode pkt => cases hc

/-- A run of additions, none of which failed, uses fresh slots only. -/
theorem run_owned {m t : DnsMsg} {cs : List Call} {rcs : List ℤ} (hm : Untouched m)
    (ha : Alike m m) (h : runCalls m cs = some (rcs, t)) (hadds : ∀ c ∈ cs, Adds c)
    (hok : ∀ rc ∈ rcs, rc = 0) : Owned t := by
  induction cs generalizing m rcs with
  | nil =>
    cases h
    exact owned_of_alike ha
  | cons c cs ih =>
    obtain ⟨⟨rc, m1⟩, hp, h⟩ := Option.bind_eq_some_iff.mp h
    obtain ⟨q, hq, h⟩ := Option.map_eq_some_iff.mp h
    cases h
    obtain rfl : rc = 0 := hok rc (by simp)
    have hc := hadds c (by simp)
    have hsame := same_call ha c (hm.fresh hc) (hm.fresh hc)
    rw [hp] at hsame
    cases hsame with
    | some _ ha1 =>
      exact ih (untouched_call hm hc hp) ha1 hq (fun c hc => hadds c (by simp [hc]))
        fun rc hrc => hok rc (by simp [hrc])

/-- After any history a record that was added with code zero is a copy of its source exactly
when it could be copied. In a run of additions none of which failed, the strings of all earlier
records are among those that were stored. -/
theorem add_rr_faithful_iff {base : ℕ} {cs : List Call} {rcs : List ℤ} {m t : DnsMsg}
    (h : runCalls (zeroMsg base) cs = some (rcs, m)) {code : ℤ} {src : DnsRr Str}
    (hadd : dnsAddRr m code (some src) = (0, t)) :
    (Faithful m t code src ↔ Copyable m code src) ∧
      ((∀ c ∈ cs, Adds c) → (∀ rc ∈ rcs, rc = 0) → Owned m) := by
  have hsized := (encodable_runCalls h).sized
  have hintact := (store_intact base cs h).2.2.2.2
  exact ⟨faithful_iff hintact hsized hadd,
    run_owned (untouched_zero base) (alike_zero base) h⟩

/-- A record whose fields are those of no type, with the given owner name. -/
def bareRr (rrType : UInt16) (name : Str) : DnsRr Str :=
  { zeroRr (none : Str) with rrType := rrType, rrClass := 1, ttl := 60, name := name }

theorem letter_plain : (0 : UInt8) ∉ ([97] : Bytes) := by decide

def hostName : Str := some ⟨[97], letter_plain⟩

def serviceRr : DnsRr Str :=
  let rr := bareRr 33 hostName
  { rr with rdata := { rr.rdata with srvPort := 853, srvName := hostName } }

theorem service_record_copied : ∃ t, dnsAddRr (zeroMsg 0) 1 (some serviceRr) = (0, t) ∧
    Faithful (zeroMsg 0) t 1 serviceRr := by
  have hzero : runCalls (zeroMsg 0) [] = some ([], zeroMsg 0) := rfl
  have hrun : dnsAddRr (zeroMsg 0) 1 (some serviceRr) = (0, _) := code_pair (by decide +kernel)
  exact ⟨_, hrun, (add_rr_faithful_iff hzero hrun).1.mpr fun _ _ => trivial⟩

theorem letters_plain : (0 : UInt8) ∉ List.replicate 254 (97 : UInt8) :=
  fun h => by cases List.eq_of_mem_replicate h

/-- An authority record whose responsible person has a name too long to be stored. -/
def longRnameRr : DnsRr Str :=
  let rr := bareRr 6 hostName
  { rr with rdata := { rr.rdata with
      soaMname := hostName
      soaRname := some ⟨List.replicate 254 97, letters_plain⟩ } }

theorem long_rname_lost : ∃ t, dnsAddRr (zeroMsg 0) 2 (some longRnameRr) = (0, t) ∧
    ¬ Faithful (zeroMsg 0) t 2 longRnameRr := by
  have hrun : dnsAddRr (zeroMsg 0) 2 (some longRnameRr) = (0, _) := code_pair (by decide +kernel)
  have hnull : ((records (dnsAddRr (zeroMsg 0) 2 (some longRnameRr)).2 .ns).map
      fun r => r.rdata.soaRname) = [.null] := by decide +kernel
  refine ⟨_, hrun, ?_⟩
  generalize (dnsAddRr (zeroMsg 0) 2 (some longRnameRr)).2 = t at hnull ⊢
  rintro ⟨sc, hsc, hg⟩
  have hns : sectOfCode 2 = some .ns := rfl
  obtain rfl := Option.some.inj (hns.symm.trans hsc)
  obtain ⟨r, hr, hcopy⟩ := hg.last
  rw [hr, List.map_append, List.map_singleton] at hnull
  have hlast : r.rdata.soaRname = .null := by
    have := congrArg List.getLast? hnull
    simpa using this
  have hrname : Copied t.store r.rdata.soaRname longRnameRr.rdata.soaRname := hcopy.rdata.2.1
  rw [hlast] at hrname
  exact not_copied_null _ _ hrname

end DnsPkt.FaithfulAdd
