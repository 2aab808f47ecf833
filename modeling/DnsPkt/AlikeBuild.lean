import DnsPkt.AlikeMessages
import DnsPkt.PairedRun

/-!
# Adding one record to two messages

A record is added to two messages that look alike. Its slot is written field
by field, and each write relates more of the two slots. When all fields that
the type of the record gives a meaning to are related, the record is counted.
Two types read what the slot held before: `TXT` appends to the strings that
are counted there, and `OPT` leaves the bits behind its flag as they are.
-/

set_option autoImplicit false

namespace DnsPkt.AlikeBuild
open DnsPkt.CheckedRun DnsPkt.CheckedRun.Run DnsPkt.PairedRun DnsPkt.Octets DnsPkt.Protocol
open DnsPkt.MessageStore DnsPkt.MessageSlots DnsPkt.MessageBuild DnsPkt.RecordView
open DnsPkt.RecordDecoder DnsPkt.AlikeMessages

/-- A write of a pointer that takes slots related by `S` to slots related by `T`. -/
structure Writes (S T : SlotRel) (f : ℕ → Ptr → DnsRr Ptr → DnsRr Ptr) : Prop where
  keeps : ∀ base p, KeepsTxt (f base p)
  rel : ∀ {V : Ptr → Prop} (base base' : ℕ) {p : Ptr} {r r' : DnsRr Ptr}, V p → S V r r' →
    T V (f base p r) (f base' p r')

structure RdWrites (S T : RdataRel) (g : ℕ → Ptr → Rdata Ptr → Rdata Ptr) : Prop where
  keeps : ∀ base p r, (g base p r).txtStr.length = r.txtStr.length
  rel : ∀ {V : Ptr → Prop} (base base' : ℕ) {p : Ptr} {r r' : Rdata Ptr}, V p → S V r r' →
    T V (g base p r) (g base' p r')

theorem RdWrites.onRdata {S T : RdataRel} {g : ℕ → Ptr → Rdata Ptr → Rdata Ptr}
    (hg : RdWrites S T g) (rrType : UInt16) :
    Writes (OfType rrType S) (OfType rrType T) (onRdata g) where
  keeps base p r := hg.keeps base p r.rdata
  rel base base' _ _ _ hp h := ⟨⟨h.1.name, h.1.valid, h.1.type_l, h.1.type_r, h.1.rrClass, h.1.ttl⟩,
    hg.rel base base' hp h.2⟩

section Filling

variable {m m' : DnsMsg} {sc : Sect} {S T : SlotRel} {f : ℕ → Ptr → DnsRr Ptr → DnsRr Ptr}

theorem Writes.write (hf : Writes S T f) {p : Ptr} (hp : Valid m.store p) (h : Filling sc S m m') :
    Filling sc T (m.modifySlot sc (f m.base p)) (m'.modifySlot sc (f m'.base p)) :=
  h.write (hf.keeps _ p) (hf.keeps _ p) fun _ hV hS => hf.rel _ _ (hV p hp) hS

end Filling

def Any : RdataRel := fun _ _ _ => True

def SamePtr (V : Ptr → Prop) (p q : Ptr) : Prop := p = q ∧ V p

section Types

variable {ty : UInt16}

theorem rdWrites_a (hk : rrKind ty = .a) (v : Vector UInt8 4) :
    RdWrites Any (RdAlike ty) fun _ _ => Rdata.setA v where
  keeps _ _ _ := rfl
  rel _ _ _ _ _ _ _ := by
    constructor <;> simp [rdNums, rdPtrs, rdNames, rdStrs, hk, Rdata.setA, Rdata.head]

theorem rdWrites_aaaa (hk : rrKind ty = .aaaa) (v : Vector UInt8 16) :
    RdWrites Any (RdAlike ty) fun _ _ => Rdata.setAaaa v where
  keeps _ _ := length_setAaaa v
  rel _ _ _ _ _ _ _ := by
    constructor <;> simp [rdNums, rdPtrs, rdNames, rdStrs, hk, Rdata.setAaaa, Rdata.head,
      Rdata.flagWord, Rdata.word]

theorem rdAlike_name {V : Ptr → Prop} {r r' : Rdata Ptr} {p : Ptr} (hp : V p)
    (hnum : rdNums ty r = rdNums ty r') (hl : rdPtrs ty r = [p]) (hr : rdPtrs ty r' = [p]) :
    RdAlike ty V r r' :=
  ⟨hnum, hl.trans hr.symm, by simpa [hl] using hp⟩

theorem rdWrites_ns (hk : rrKind ty = .ns) : RdWrites Any (RdAlike ty) Rdata.setNsName where
  keeps _ _ _ := rfl
  rel _ _ _ _ _ hp _ := rdAlike_name hp (by simp [rdNums, hk])
    (by simp [rdPtrs, rdNames, rdStrs, hk]; rfl) (by simp [rdPtrs, rdNames, rdStrs, hk]; rfl)

theorem rdWrites_cname (hk : rrKind ty = .cname) : RdWrites Any (RdAlike ty) Rdata.setCname where
  keeps _ _ _ := rfl
  rel _ _ _ _ _ hp _ := rdAlike_name hp (by simp [rdNums, hk])
    (by simp [rdPtrs, rdNames, rdStrs, hk]; rfl) (by simp [rdPtrs, rdNames, rdStrs, hk]; rfl)

theorem rdWrites_ptr (hk : rrKind ty = .ptr) : RdWrites Any (RdAlike ty) Rdata.setPtrName where
  keeps _ _ _ := rfl
  rel _ _ _ _ _ hp _ := rdAlike_name hp (by simp [rdNums, hk])
    (by simp [rdPtrs, rdNames, rdStrs, hk]; rfl) (by simp [rdPtrs, rdNames, rdStrs, hk]; rfl)

def Mname : RdataRel := fun V r r' => SamePtr V r.soaMname r'.soaMname

def SoaNames : RdataRel := fun V r r' => Mname V r r' ∧ SamePtr V r.soaRname r'.soaRname

theorem rdWrites_mname : RdWrites Any Mname Rdata.setSoaMname where
  keeps _ _ _ := rfl
  rel _ _ _ _ _ hp _ := ⟨rfl, hp⟩

theorem rdWrites_rname : RdWrites Mname SoaNames fun _ => Rdata.setSoaRname where
  keeps _ _ _ := List.length_set
  rel _ _ _ _ _ hp h := ⟨h, rfl, hp⟩

theorem rdWrites_soa (hk : rrKind ty = .soa) (serial refresh retry expire minTtl : UInt32) :
    RdWrites SoaNames (RdAlike ty) fun _ _ =>
      Rdata.setSoaVals serial refresh retry expire minTtl where
  keeps _ _ _ := by simp [Rdata.setSoaVals, Rdata.word]
  rel _ _ _ _ _ _ h := by
    obtain ⟨⟨h1, h2⟩, h3, h4⟩ := h
    constructor <;> simp [rdNums, rdPtrs, rdNames, rdStrs, hk, Rdata.setSoaVals, Rdata.word,
      ← h1, ← h3, h2, h4]

def Cpu : RdataRel := fun V r r' => SamePtr V r.hinfoCpuStr r'.hinfoCpuStr

theorem rdWrites_cpu : RdWrites Any Cpu Rdata.setHinfoCpuStr where
  keeps _ _ _ := rfl
  rel _ _ _ _ _ hp _ := ⟨rfl, hp⟩

theorem rdWrites_hinfo (hk : rrKind ty = .hinfo) :
    RdWrites Cpu (RdAlike ty) fun _ => Rdata.setHinfoOsStr where
  keeps _ _ _ := List.length_set
  rel _ _ _ _ _ hp h := by
    obtain ⟨h1, h2⟩ := h
    constructor <;> simp [rdNums, rdPtrs, rdNames, rdStrs, hk, Rdata.setHinfoOsStr, Rdata.word,
      ← h1, h2, hp]

def Pref : RdataRel := fun _ r r' => r.mxPref = r'.mxPref

theorem rdWrites_pref (v : UInt16) : RdWrites Any Pref fun _ _ => Rdata.setMxPref v where
  keeps _ _ _ := rfl
  rel _ _ _ _ _ _ _ := rfl

theorem rdWrites_mx (hk : rrKind ty = .mx) :
    RdWrites Pref (RdAlike ty) fun _ => Rdata.setMxName where
  keeps _ _ _ := List.length_set
  rel _ _ _ _ _ hp h := by
    have h : _ = _ := h
    constructor <;> simp [rdNums, rdPtrs, rdNames, rdStrs, hk, Rdata.setMxName, Rdata.word, h, hp]

def SrvVals : RdataRel := fun _ r r' =>
  r.srvPrior = r'.srvPrior ∧ r.srvWeight = r'.srvWeight ∧ r.srvPort = r'.srvPort

theorem rdWrites_srvVals (prior weight port : UInt16) :
    RdWrites Any SrvVals fun _ _ => Rdata.setSrvVals prior weight port where
  keeps _ _ _ := rfl
  rel _ _ _ _ _ _ _ := ⟨rfl, rfl, rfl⟩

theorem rdWrites_srv (hk : rrKind ty = .srv) :
    RdWrites SrvVals (RdAlike ty) fun _ => Rdata.setSrvName where
  keeps _ _ _ := List.length_set
  rel _ _ _ _ _ hp h := by
    obtain ⟨h1, h2, h3⟩ := h
    constructor <;> simp [rdNums, rdPtrs, rdNames, rdStrs, hk, Rdata.setSrvName, Rdata.word,
      h1, h2, h3, hp]

def ZBits : RdataRel := fun _ r r' => r.optZBits = r'.optZBits

theorem rdWrites_opt (hk : rrKind ty = .opt) (udpSize : UInt16) (extRcode ednsVer : UInt8)
    (doBit : Bool) : RdWrites ZBits (RdAlike ty) fun _ _ =>
      Rdata.setOpt udpSize extRcode ednsVer doBit where
  keeps _ _ _ := rfl
  rel _ _ _ _ _ _ h := by
    have h : _ = _ := h
    constructor <;> simp [rdNums, rdPtrs, rdNames, rdStrs, hk, Rdata.setOpt, Rdata.head, h]

theorem rdAlike_other (hk : rrKind ty = .any ∨ rrKind ty = .other) {V : Ptr → Prop}
    (r r' : Rdata Ptr) : RdAlike ty V r r' := by
  rcases hk with hk | hk <;> constructor <;> simp [rdNums, rdPtrs, rdNames, rdStrs, hk]

structure TxtAlike (V : Ptr → Prop) (r r' : Rdata Ptr) : Prop where
  num : r.txtNumStr = r'.txtNumStr
  ptrs : txtPtrs r = txtPtrs r'
  valid : ∀ p ∈ txtPtrs r, V p
  size_l : r.txtStr.length = dnsMaxTxt
  size_r : r'.txtStr.length = dnsMaxTxt

theorem txtAlike_free {V : Ptr → Prop} {r r' : Rdata Ptr} (h : FreeTxt r) (h' : FreeTxt r') :
    TxtAlike V r r' := by
  obtain ⟨h1, h2⟩ := h
  obtain ⟨h3, h4⟩ := h'
  exact ⟨h1.trans h3.symm, by simp [txtPtrs, h1, h3], by simp [txtPtrs, h1], h2, h4⟩

theorem TxtAlike.rdAlike (hk : rrKind ty = .txt) {V : Ptr → Prop} {r r' : Rdata Ptr}
    (h : TxtAlike V r r') : RdAlike ty V r r' where
  nums := by simp [rdNums, hk]
  ptrs := by simp [rdPtrs, rdNames, rdStrs, hk, h.ptrs]
  valid := by
    simp only [rdPtrs, rdNames, rdStrs, hk, List.nil_append]
    exact h.valid

/-- A string has been put behind the `n` counted ones. -/
def TxtPut (n : ℕ) : RdataRel := fun V r r' =>
  TxtAlike V r r' ∧ r.txtNumStr = n ∧ SamePtr V (r.txtStr.getD n .wild) (r'.txtStr.getD n .wild)

theorem txtPtrs_set (r : Rdata Ptr) (p : Ptr) :
    txtPtrs { r with txtStr := r.txtStr.set r.txtNumStr p } = txtPtrs r := by
  unfold txtPtrs
  refine List.map_congr_left fun i hi => ?_
  have hlt : i < r.txtNumStr := List.mem_range.mp hi
  simp [List.getD_eq_getElem?_getD, show r.txtNumStr ≠ i by omega]

theorem rdWrites_txtPut {n : ℕ} (hn : n < dnsMaxTxt) :
    RdWrites (fun V r r' => TxtAlike V r r' ∧ r.txtNumStr = n) (TxtPut n)
      fun _ p r => { r with txtStr := r.txtStr.set n p } where
  keeps _ _ _ := List.length_set
  rel _ _ p r r' hp h := by
    obtain ⟨h, rfl⟩ := h
    have hr : txtPtrs { r' with txtStr := r'.txtStr.set r.txtNumStr p } = txtPtrs r' := by
      rw [h.num]
      exact txtPtrs_set r' p
    refine ⟨⟨h.num, ?_, ?_, ?_, ?_⟩, rfl, ?_, ?_⟩
    · rw [txtPtrs_set, hr, h.ptrs]
    · rw [txtPtrs_set]
      exact h.valid
    · rw [List.length_set, h.size_l]
    · rw [List.length_set, h.size_r]
    · simp [List.getD_eq_getElem?_getD, h.size_l, h.size_r, hn]
    · simpa [List.getD_eq_getElem?_getD, h.size_l, hn] using hp

theorem txtPtrs_succ (r : Rdata Ptr) : txtPtrs { r with txtNumStr := r.txtNumStr+1 } =
    txtPtrs r ++ [r.txtStr.getD r.txtNumStr .wild] := by
  simp only [txtPtrs, List.range_succ, List.map_append, List.map_cons, List.map_nil]

theorem rdWrites_txtCount (n : ℕ) :
    RdWrites (TxtPut n) TxtAlike fun _ _ r => { r with txtNumStr := r.txtNumStr+1 } where
  keeps _ _ _ := rfl
  rel {V} _ _ _ r r' _ h := by
    obtain ⟨h, rfl, hp, hv⟩ := h
    have hp : r.txtStr.getD r.txtNumStr .wild = r'.txtStr.getD r'.txtNumStr .wild := by
      rw [hp, h.num]
    refine ⟨congrArg Nat.succ h.num, ?_, ?_, h.size_l, h.size_r⟩
    · rw [txtPtrs_succ, txtPtrs_succ, h.ptrs, hp]
    · intro q hq
      rw [txtPtrs_succ] at hq
      rcases List.mem_append.mp hq with hq | hq
      · exact h.valid q hq
      · obtain rfl := List.mem_singleton.mp hq
        exact hv

end Types

section Statements

variable {m m' : DnsMsg} {sc : Sect} {ty : UInt16} {S T : RdataRel}

theorem paired_storeStr {S : SlotRel} (h : Filling sc S m m') (str : Bytes) :
    Paired (fun p n n' => Filling sc S n n' ∧ Valid n.store p) Alike
      (storeStr str m) (storeStr str m') := by
  unfold storeStr
  rcases h.stored str with ⟨hl, hr⟩ | ⟨off, st, st', hl, hr, hv, hf⟩
  · rw [hl, hr]
    exact .ok ⟨h, .inl rfl⟩
  · rw [hl, hr]
    exact .ok ⟨hf, hv⟩

theorem paired_modifySlot {S T : SlotRel} {g : Ptr → DnsRr Ptr → DnsRr Ptr}
    (hg : Writes S T fun _ => g) (h : Filling sc S m m') {p : Ptr} (hp : Valid m.store p) :
    Paired (fun _ => Filling sc T) Alike (modifySlot sc (g p) m) (modifySlot sc (g p) m') :=
  .ok (hg.write hp h)

theorem paired_modifyRdata {g : ℕ → Ptr → Rdata Ptr → Rdata Ptr} (hg : RdWrites S T g)
    (h : Filling sc (OfType ty S) m m') {p : Ptr} (hp : Valid m.store p) :
    Paired (fun _ => Filling sc (OfType ty T)) Alike (modifyRdata sc (fun base => g base p) m)
      (modifyRdata sc (fun base => g base p) m') := .ok ((hg.onRdata ty).write hp h)

theorem steps_modifyRdata {g : Rdata Ptr → Rdata Ptr} (hg : RdWrites S T fun _ _ => g) :
    Steps Alike (Filling sc (OfType ty S)) (Filling sc (OfType ty T))
      (modifyRdata sc fun _ => g) := ⟨fun h => paired_modifyRdata hg h (.inl rfl)⟩

theorem steps_fail {S : SlotRel} (p : Prop) [Decidable p] :
    Steps Alike (Filling sc S) (Filling sc S) (when p (exit (-1)) : Build Unit) :=
  steps_when p fun _ => steps_exit (fun _ _ h => h.alike) (-1)

theorem steps_addNameUnchecked {g : ℕ → Ptr → Rdata Ptr → Rdata Ptr} (hg : RdWrites S T g)
    (str : Str) : Steps Alike (Filling sc (OfType ty S)) (Filling sc (OfType ty T))
      (addNameUnchecked sc str g) :=
  ⟨fun h => (paired_storeStr h _).bind fun _ _ _ hp => paired_modifyRdata hg hp.1 hp.2⟩

theorem steps_addName {g : ℕ → Ptr → Rdata Ptr → Rdata Ptr} (hg : RdWrites S T g) (str : Str) :
    Steps Alike (Filling sc (OfType ty S)) (Filling sc (OfType ty T)) (addName sc str g) :=
  ⟨fun h => (paired_storeStr h _).bind fun _ _ _ hp =>
    (paired_modifyRdata hg hp.1 hp.2).bind fun _ _ _ h => (steps_fail _).run h⟩

/-- The relation of the slots, with the number of strings that are counted in one of them. -/
theorem Filling.counted (h : Filling sc (OfType ty TxtAlike) m m') :
    Filling sc (OfType ty fun V r r' => TxtAlike V r r' ∧
      r.txtNumStr = (slot m sc).rdata.txtNumStr) m m' :=
  ⟨h.alike, h.free, fun V hV => ⟨(h.slots V hV).1, (h.slots V hV).2, rfl⟩⟩

theorem Filling.num (h : Filling sc (OfType ty TxtAlike) m m') :
    (slot m sc).rdata.txtNumStr = (slot m' sc).rdata.txtNumStr :=
  (h.slots _ fun _ hp => hp).2.num

theorem addTxt_cons (str : Str) (rest : List Str) (m : DnsMsg) : addTxt sc (str :: rest) m =
    (when (dnsMaxTxt ≤ (slot m sc).rdata.txtNumStr) (exit (-1)) >>= fun _ =>
      storeStr str.bytes >>= fun p =>
      modifyRdata sc (fun _ r =>
        { r with txtStr := r.txtStr.set (slot m sc).rdata.txtNumStr p }) >>= fun _ =>
      when (p = .null) (exit (-1)) >>= fun _ =>
      modifyRdata sc (fun _ r => { r with txtNumStr := r.txtNumStr+1 }) >>= fun _ =>
      addTxt sc rest) m := rfl

theorem steps_addTxt (strs : List Str) : Steps Alike (Filling sc (OfType ty TxtAlike))
    (Filling sc (OfType ty TxtAlike)) (addTxt sc strs) := by
  induction strs with
  | nil => exact steps_pure _
  | cons str rest ih =>
    refine ⟨fun {m m'} h => ?_⟩
    rw [addTxt_cons, addTxt_cons, ← Filling.num h]
    by_cases hfull : dnsMaxTxt ≤ (slot m sc).rdata.txtNumStr
    · rw [bind_when_pos hfull, bind_when_pos hfull]
      exact .exit h.alike
    rw [bind_when_neg hfull, bind_when_neg hfull]
    refine (paired_storeStr (Filling.counted h) _).bind fun p n n' hp => ?_
    have hput := rdWrites_txtPut (Nat.lt_of_not_le hfull)
    refine (paired_modifyRdata hput hp.1 hp.2).bind fun _ _ _ hn => ?_
    refine ((steps_fail (p = .null)).run hn).bind fun _ _ _ hn => ?_
    exact ((steps_modifyRdata (rdWrites_txtCount _)).run hn).bind fun _ _ _ hn => ih.run hn

def AddReads (rrType : UInt16) : RdataRel :=
  match rrKind rrType with
  | .txt => TxtAlike
  | .opt => ZBits
  | _ => Any

theorem steps_addRdata (src : DnsRr Str) :
    Steps Alike (Filling sc (OfType src.rrType (AddReads src.rrType)))
      (Filling sc (OfType src.rrType (RdAlike src.rrType))) (addRdata sc src) := by
  unfold addRdata AddReads
  cases hk : rrKind src.rrType with
  | a => exact steps_modifyRdata (rdWrites_a hk _)
  | ns => exact steps_addName (rdWrites_ns hk) _
  | cname => exact steps_addName (rdWrites_cname hk) _
  | soa =>
    exact (steps_addName rdWrites_mname _).bind fun _ =>
      (steps_addNameUnchecked rdWrites_rname _).bind fun _ =>
      steps_modifyRdata (rdWrites_soa hk _ _ _ _ _)
  | ptr => exact steps_addName (rdWrites_ptr hk) _
  | hinfo =>
    exact (steps_addNameUnchecked rdWrites_cpu _).bind fun _ =>
      steps_addNameUnchecked (rdWrites_hinfo hk) _
  | mx =>
    exact (steps_modifyRdata (rdWrites_pref _)).bind fun _ => steps_addName (rdWrites_mx hk) _
  | txt =>
    refine (steps_addTxt _).imp fun n n' hn => ?_
    exact ⟨hn.alike, hn.free, fun V hV => ⟨(hn.slots V hV).1, (hn.slots V hV).2.rdAlike hk⟩⟩
  | aaaa => exact steps_modifyRdata (rdWrites_aaaa hk _)
  | srv =>
    exact (steps_modifyRdata (rdWrites_srvVals _ _ _)).bind fun _ =>
      steps_addName (rdWrites_srv hk) _
  | opt => exact steps_modifyRdata (rdWrites_opt hk _ _ _ _)
  | any | other =>
    exact (steps_pure _).imp fun n n' h => ⟨h.alike, h.free, fun V hV =>
      ⟨(h.slots V hV).1, rdAlike_other (by simp [hk]) _ _⟩⟩

end Statements

def Bare (S : RdataRel) : SlotRel := fun V r r' => S V r.rdata r'.rdata

def Named (S : RdataRel) : SlotRel := fun V r r' => SamePtr V r.name r'.name ∧ S V r.rdata r'.rdata

theorem writes_name (S : RdataRel) :
    Writes (Bare S) (Named S) fun _ p r => { r with name := p } where
  keeps _ _ _ := rfl
  rel _ _ _ _ _ hp h := ⟨⟨rfl, hp⟩, h⟩

theorem writes_fixed (S : RdataRel) (rrType rrClass : UInt16) (ttl : UInt32) :
    Writes (Named S) (OfType rrType S) fun _ _ r =>
      { r with rrType := rrType, rrClass := rrClass, ttl := ttl } where
  keeps _ _ _ := rfl
  rel _ _ _ _ _ _ h := ⟨⟨h.1.1, h.1.2, rfl, rfl, rfl, rfl⟩, h.2⟩

/-- There is a slot for the record, and its owner name can be stored. -/
def ReachesRdata (m : DnsMsg) (sc : Sect) (src : DnsRr Str) : Prop :=
  (m.sect sc).count < dnsMaxRr ∧ msgStoreStr m.store src.name.bytes ≠ none

/-- What the slots hold is only read where the addition reaches it. -/
theorem paired_dnsSectAddRr {m m' : DnsMsg} (h : Alike m m') (sc : Sect) (src : DnsRr Str)
    (hreads : ReachesRdata m sc src →
      ∀ V, AddReads src.rrType V (slot m sc).rdata (slot m' sc).rdata) :
    Paired (fun _ => Alike) Alike (dnsSectAddRr sc src m) (dnsSectAddRr sc src m') := by
  refine paired_get_bind ?_
  by_cases hfull : dnsMaxRr ≤ (m.sect sc).count
  · rw [bind_when_pos hfull, bind_when_pos (h.count sc ▸ hfull)]
    exact .exit h
  rw [bind_when_neg hfull, bind_when_neg (h.count sc ▸ hfull)]
  have hfree := Nat.lt_of_not_le hfull
  have hbare : Filling sc (Bare fun V r r' => ReachesRdata m sc src →
      AddReads src.rrType V r r') m m' := ⟨h, hfree, fun V _ hreach => hreads hreach V⟩
  refine (paired_storeStr hbare _).and_run.bind fun p n n' hp => ?_
  obtain ⟨hp, hstored, -⟩ := hp
  refine (paired_modifySlot (writes_name _) hp.1 hp.2).bind fun _ n n' hn => ?_
  by_cases hnull : p = .null
  · rw [bind_when_pos hnull, bind_when_pos hnull]
    exact .exit hn.alike
  rw [bind_when_neg hnull, bind_when_neg hnull]
  have hreach : ReachesRdata m sc src := ⟨hfree, fun hnone => by
    rw [storeStr, hnone] at hstored
    cases hstored
    exact hnull rfl⟩
  replace hn : Filling sc (Named (AddReads src.rrType)) n n' :=
    ⟨hn.alike, hn.free, fun V hV => ⟨(hn.slots V hV).1, (hn.slots V hV).2 hreach⟩⟩
  refine (paired_modifySlot (writes_fixed _ _ _ _) hn (.inl rfl)).bind fun _ n n' hn => ?_
  refine ((steps_addRdata src).run hn).bind fun _ n n' hn => ?_
  refine Paired.bind (paired_modify ?_) fun _ _ _ hn => .ok hn
  exact Filling.count ⟨hn.alike, hn.free, fun V hV => ⟨_, hn.slots V hV⟩⟩

end DnsPkt.AlikeBuild
