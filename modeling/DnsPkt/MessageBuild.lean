import DnsPkt.MessageSlots
import DnsPkt.NameCompression

/-!
# Messages built by the API

Every message that `dns_msg_init`, `dns_add_qd` and `dns_add_rr` build from a
zeroed one keeps its strings apart in the store: the pointers that a record's
type uses show strings that were stored for it, or are null where the source
does not check the store. So all strings of a message together fit the store.
-/

set_option autoImplicit false

namespace DnsPkt.MessageBuild
open DnsPkt.CheckedRun DnsPkt.CheckedRun.Run DnsPkt.Octets DnsPkt.Protocol
open DnsPkt.MessageStore DnsPkt.MessageSlots DnsPkt.NameCompression

def rdNames {α : Type} (rrType : UInt16) (r : Rdata α) : List α :=
  match rrKind rrType with
  | .ns => [r.nsName]
  | .cname => [r.cname]
  | .soa => [r.soaMname, r.soaRname]
  | .ptr => [r.ptrName]
  | .mx => [r.mxName]
  | .srv => [r.srvName]
  | _ => []

def txtPtrs (r : Rdata Ptr) : List Ptr := (List.range r.txtNumStr).map fun i =>
    r.txtStr.getD i .wild

def rdStrs (rrType : UInt16) (r : Rdata Ptr) : List Ptr :=
  match rrKind rrType with
  | .hinfo => [r.hinfoCpuStr, r.hinfoOsStr]
  | .txt => txtPtrs r
  | _ => []

def rrPtrs (r : DnsRr Ptr) : List Ptr :=
  r.name :: (rdNames r.rrType r.rdata ++ rdStrs r.rrType r.rdata)

def NameText (N : List Bytes → Prop) (text : Bytes) : Prop :=
  ∃ ls, N ls ∧ (∀ l ∈ ls, IsLabel l) ∧ text = dotted ls

def Shown (P : Bytes → Prop) (st : NameStore) (p : Ptr) : Prop :=
  ∃ str, P str ∧ (0 : UInt8) ∉ str ∧ str.length ≤ dnsNameMaxstr ∧ Stored st p str

theorem Shown.later {P : Bytes → Prop} {st st' : NameStore} (h : Later st st') {p : Ptr}
    (hp : Shown P st p) : Shown P st' p := by
  obtain ⟨str, h1, h2, h3, h4⟩ := hp
  exact ⟨str, h1, h2, h3, h.keep p str h4⟩

theorem Shown.str {P : Bytes → Prop} {st : NameStore} {p : Ptr} (h : Shown P st p) :
    ∃ str, P str ∧ (0 : UInt8) ∉ str ∧ str.length ≤ dnsNameMaxstr ∧ st.str p = some str := by
  obtain ⟨str, h1, h2, h3, h4⟩ := h
  exact ⟨str, h1, h2, h3, by rw [h4.str, cstr_of_no_zero _ h2]⟩

structure SlotOk (N : List Bytes → Prop) (st : NameStore) (r : DnsRr Ptr) : Prop where
  owner : Shown (NameText N) st r.name
  names : ∀ p ∈ rdNames r.rrType r.rdata, p = .null ∨ Shown (NameText N) st p
  strs : ∀ p ∈ rdStrs r.rrType r.rdata, p = .null ∨ Shown (fun _ => True) st p

def strWeight (st : NameStore) (p : Ptr) : ℕ :=
  match st.str p with
  | some s => s.length+1
  | none => 0

def weight (st : NameStore) (ps : List Ptr) : ℕ := (ps.map (strWeight st)).sum

theorem strWeight_later {P : Bytes → Prop} {st st' : NameStore} (h : Later st st') {p : Ptr}
    (hp : p = .null ∨ Shown P st p) : strWeight st' p = strWeight st p := by
  rcases hp with rfl | ⟨str, -, -, -, hs⟩
  · rfl
  · rw [strWeight, strWeight, hs.str, (h.keep p str hs).str]

theorem SlotOk.later {N : List Bytes → Prop} {st st' : NameStore} (h : Later st st')
    {r : DnsRr Ptr} (hr : SlotOk N st r) : SlotOk N st' r where
  owner := hr.owner.later h
  names p hp := (hr.names p hp).imp_right fun hs => hs.later h
  strs p hp := (hr.strs p hp).imp_right fun hs => hs.later h

theorem SlotOk.weight_later {N : List Bytes → Prop} {st st' : NameStore} (h : Later st st')
    {r : DnsRr Ptr} (hr : SlotOk N st r) : weight st' (rrPtrs r) = weight st (rrPtrs r) := by
  unfold weight
  congr 1
  refine List.map_congr_left fun p hp => ?_
  rcases List.mem_cons.mp hp with rfl | hp
  · exact strWeight_later h (.inr hr.owner)
  rcases List.mem_append.mp hp with hp | hp
  · exact strWeight_later h (hr.names p hp)
  · exact strWeight_later h (hr.strs p hp)

theorem zero_notMem_bytes (s : Str) : (0 : UInt8) ∉ s.bytes := by
  cases s with
  | none => simp [Str.bytes]
  | some c => exact c.no_nul

/-- A pointer that `msg_store_name` returned, with the store it left. -/
def Puts (st : NameStore) (str : Bytes) (p : Ptr) (st' : NameStore) : Prop :=
  (∃ off, msgStoreStr st str = some (off, st') ∧ p = .ref off) ∨
    (msgStoreStr st str = none ∧ p = .null ∧ st' = st)

theorem Puts.later {st st' : NameStore} {str : Bytes} {p : Ptr} (h : Puts st str p st') :
    Later st st' := by
  rcases h with ⟨off, h, -⟩ | ⟨-, -, rfl⟩
  · exact (msgStoreStr_some h).2.1
  · exact .refl _

theorem Puts.shown {P : Bytes → Prop} {st st' : NameStore} {str : Bytes} {p : Ptr}
    (h : Puts st str p st') (hP : P str) (h0 : (0 : UInt8) ∉ str) :
    (p = .null ∨ Shown P st' p) ∧ st'.len = st.len+strWeight st' p := by
  rcases h with ⟨off, h, rfl⟩ | ⟨-, rfl, rfl⟩
  · obtain ⟨hs, -, hlen, hle⟩ := msgStoreStr_some h
    refine ⟨.inr ⟨str, hP, h0, hle, hs⟩, ?_⟩
    rw [strWeight, hs.str, cstr_of_no_zero _ h0]
    omega
  · exact ⟨.inl rfl, rfl⟩

theorem Puts.stored {st st' : NameStore} {str : Bytes} {p : Ptr} (h : Puts st str p st')
    (hp : p ≠ .null) : Stored st' p str := by
  rcases h with ⟨off, h, rfl⟩ | ⟨-, rfl, -⟩
  · exact (msgStoreStr_some h).1
  · exact absurd rfl hp

theorem storeStr_stage (m : DnsMsg) (sc : Sect) (st : NameStore) (r : DnsRr Ptr) (str : Bytes) :
    ∃ p st', Puts st str p st' ∧
      storeStr str (stage m sc st r) = .ok p (stage m sc st' r) := by
  unfold storeStr
  rw [stage_store]
  cases h : msgStoreStr st str with
  | none => exact ⟨.null, st, .inr ⟨h, rfl, rfl⟩, rfl⟩
  | some q =>
    refine ⟨.ref q.1, q.2, .inl ⟨q.1, h, rfl⟩, ?_⟩
    simp only [stage_setStore]

section Stage

variable {m : DnsMsg} {sc : Sect} {st : NameStore} {r : DnsRr Ptr}

theorem modifySlot_stage (f : DnsRr Ptr → DnsRr Ptr) :
    modifySlot sc f (stage m sc st r) = .ok () (stage m sc st (f r)) := by
  simp [MessageStore.modifySlot]

theorem modifyRdata_stage (f : ℕ → Rdata Ptr → Rdata Ptr) :
    modifyRdata sc f (stage m sc st r) =
      .ok () (stage m sc st { r with rdata := f m.base r.rdata }) := by
  simp [modifyRdata]

theorem addName_stage {str : Str} {f : ℕ → Ptr → Rdata Ptr → Rdata Ptr} {t : DnsMsg} {u : Unit}
    (h : addName sc str f (stage m sc st r) = .ok u t) : ∃ p st', Puts st str.bytes p st' ∧
      p ≠ .null ∧ t = stage m sc st' { r with rdata := f m.base p r.rdata } := by
  obtain ⟨p, st', hp, hs⟩ := storeStr_stage m sc st r str.bytes
  rw [addName, bind_of_ok hs, bind_of_ok (modifyRdata_stage _)] at h
  refine ⟨p, st', hp, ?_⟩
  by_cases hn : p = .null
  · rw [when_pos hn] at h
    cases h
  · rw [when_neg hn] at h
    cases h
    exact ⟨hn, rfl⟩

theorem addNameUnchecked_stage (m : DnsMsg) (sc : Sect) (st : NameStore) (r : DnsRr Ptr)
    (str : Str) (f : ℕ → Ptr → Rdata Ptr → Rdata Ptr) :
    ∃ p st', Puts st str.bytes p st' ∧ addNameUnchecked sc str f (stage m sc st r) =
      .ok () (stage m sc st' { r with rdata := f m.base p r.rdata }) := by
  obtain ⟨p, st', hp, hs⟩ := storeStr_stage m sc st r str.bytes
  exact ⟨p, st', hp, by rw [addNameUnchecked, bind_of_ok hs, modifyRdata_stage]⟩

def FreeTxt (r : Rdata Ptr) : Prop := r.txtNumStr = 0 ∧ r.txtStr.length = dnsMaxTxt

theorem txtPtrs_push {r : Rdata Ptr} (hlen : r.txtStr.length = dnsMaxTxt)
    (hlt : r.txtNumStr < dnsMaxTxt) (p : Ptr) :
    txtPtrs { r with txtStr := r.txtStr.set r.txtNumStr p, txtNumStr := r.txtNumStr+1 } =
      txtPtrs r ++ [p] := by
  simp only [txtPtrs, List.range_succ, List.map_append, List.map_cons, List.map_nil]
  congr 1
  · refine List.map_congr_left fun i hi => ?_
    have := List.mem_range.mp hi
    simp [List.getD_eq_getElem?_getD, show r.txtNumStr ≠ i by omega]
  · simp [List.getD_eq_getElem?_getD, hlen, hlt]

/-- Appending strings: the new pointers show what was stored for them. -/
theorem addTxt_stage (hcount : (m.sect sc).count < dnsMaxRr) {strs : List Str} {t : DnsMsg}
    {u : Unit} (hlen : r.rdata.txtStr.length = dnsMaxTxt)
    (h : addTxt sc strs (stage m sc st r) = .ok u t) :
    ∃ ps st' rd, Later st st' ∧ t = stage m sc st' { r with rdata := rd } ∧
      txtPtrs rd = txtPtrs r.rdata ++ ps ∧
      List.Forall₂ (fun p s => Stored st' p s.bytes) ps strs ∧
      (∀ p ∈ ps, p = .null ∨ Shown (fun _ => True) st' p) ∧ st'.len = st.len+weight st' ps := by
  induction strs generalizing st r with
  | nil =>
    cases h
    exact ⟨[], st, r.rdata, .refl _, rfl, by simp, .nil, by simp, by simp [weight]⟩
  | cons str rest ih =>
    unfold addTxt at h
    rw [bind_of_ok (get_run _)] at h
    change (when (dnsMaxTxt ≤ (slot (stage m sc st r) sc).rdata.txtNumStr) (exit (-1)) >>= _) _ =
      _ at h
    rw [slot_stage st r hcount] at h
    by_cases hfull : dnsMaxTxt ≤ r.rdata.txtNumStr
    · rw [bind_when_pos hfull] at h
      cases h
    rw [bind_when_neg hfull] at h
    obtain ⟨p, st1, hp, hs⟩ := storeStr_stage m sc st r str.bytes
    rw [bind_of_ok hs, bind_of_ok (modifyRdata_stage _)] at h
    by_cases hn : p = .null
    · rw [bind_when_pos hn] at h
      cases h
    rw [bind_when_neg hn, bind_of_ok (modifyRdata_stage _)] at h
    change addTxt sc rest (stage m sc st1 { r with
      rdata := { r.rdata with
        txtStr := r.rdata.txtStr.set (slot (stage m sc st r) sc).rdata.txtNumStr p
        txtNumStr := r.rdata.txtNumStr+1 } }) = _ at h
    rw [slot_stage st r hcount] at h
    obtain ⟨ps, st', rd, hlater, ht, hptrs, hstored, hshown, hweight⟩ :=
      ih (by simpa using hlen) h
    obtain ⟨hp1, hp2⟩ := hp.shown (P := fun _ => True) trivial (zero_notMem_bytes str)
    refine ⟨p :: ps, st', rd, hp.later.trans hlater, ht, ?_, ?_, ?_, ?_⟩
    · rw [hptrs, txtPtrs_push hlen (by omega)]
      simp
    · exact .cons (hlater.keep _ _ (hp.stored hn)) hstored
    · intro q hq
      rcases List.mem_cons.mp hq with rfl | hq
      · exact hp1.imp_right fun h => h.later hlater
      · exact hshown q hq
    · have := strWeight_later hlater hp1
      simp only [weight, List.map_cons, List.sum_cons] at hweight ⊢
      omega

/-- What a call leaves in the slot and the store after the RDATA was added:
the pointers that the type uses are shown or null, and take all the room that
was used. -/
structure RdataAdded (N : List Bytes → Prop) (rrType : UInt16) (st st' : NameStore)
    (rd : Rdata Ptr) : Prop where
  later : Later st st'
  names : ∀ p ∈ rdNames rrType rd, p = .null ∨ Shown (NameText N) st' p
  strs : ∀ p ∈ rdStrs rrType rd, p = .null ∨ Shown (fun _ => True) st' p
  len : st'.len = st.len+weight st' (rdNames rrType rd ++ rdStrs rrType rd)

variable {N : List Bytes → Prop} {rrType : UInt16} {rd : Rdata Ptr}

theorem rdataAdded_none (hn : rdNames rrType rd = []) (hs : rdStrs rrType rd = []) :
    RdataAdded N rrType st st rd :=
  ⟨.refl _, by simp [hn], by simp [hs], by simp [hn, hs, weight]⟩

theorem rdataAdded_name {st' : NameStore} {str : Str} {p : Ptr} (h : Puts st str.bytes p st')
    (hstr : NameText N str.bytes) (hn : rdNames rrType rd = [p]) (hs : rdStrs rrType rd = []) :
    RdataAdded N rrType st st' rd := by
  obtain ⟨h1, h2⟩ := h.shown hstr (zero_notMem_bytes str)
  exact ⟨h.later, by simpa [hn] using h1, by simp [hs], by simp [hn, hs, weight, h2]⟩

theorem rdataAdded_pair {P : Bytes → Prop} {st1 st2 : NameStore} {a b : Str} {p q : Ptr}
    (h : Puts st a.bytes p st1) (ha : P a.bytes) (h' : Puts st1 b.bytes q st2) (hb : P b.bytes) :
    Later st st2 ∧ (∀ x ∈ [p, q], x = .null ∨ Shown P st2 x) ∧
      st2.len = st.len+weight st2 [p, q] := by
  obtain ⟨h1, h2⟩ := h.shown ha (zero_notMem_bytes a)
  obtain ⟨h3, h4⟩ := h'.shown hb (zero_notMem_bytes b)
  have hw := strWeight_later h'.later h1
  refine ⟨h.later.trans h'.later, ?_, ?_⟩
  · intro x hx
    rcases List.mem_cons.mp hx with rfl | hx
    · exact h1.imp_right fun h => h.later h'.later
    · obtain rfl := List.mem_singleton.mp hx
      exact h3
  · simp only [weight, List.map_cons, List.map_nil, List.sum_cons, List.sum_nil]
    omega

theorem addRdata_stage (hcount : (m.sect sc).count < dnsMaxRr) {src : DnsRr Str} {t : DnsMsg}
    {u : Unit} (hnames : ∀ s ∈ rdNames src.rrType src.rdata, NameText N s.bytes)
    (hfree : rrKind src.rrType = .txt → FreeTxt r.rdata)
    (h : addRdata sc src (stage m sc st r) = .ok u t) :
    ∃ st' rd, t = stage m sc st' { r with rdata := rd } ∧ RdataAdded N src.rrType st st' rd := by
  unfold addRdata at h
  cases hk : rrKind src.rrType with
  | a | aaaa | opt =>
    simp only [hk, modifyRdata_stage] at h
    cases h
    exact ⟨st, _, rfl, rdataAdded_none (by simp [rdNames, hk]) (by simp [rdStrs, hk])⟩
  | any | other =>
    simp only [hk] at h
    cases h
    exact ⟨st, r.rdata, rfl, rdataAdded_none (by simp [rdNames, hk]) (by simp [rdStrs, hk])⟩
  | ns | cname | ptr =>
    simp only [hk] at h
    obtain ⟨p, st', hp, -, rfl⟩ := addName_stage h
    exact ⟨st', _, rfl, rdataAdded_name hp (hnames _ (by simp [rdNames, hk]))
      (by simp [rdNames, hk]; rfl) (by simp [rdStrs, hk])⟩
  | mx | srv =>
    simp only [hk] at h
    rw [bind_of_ok (modifyRdata_stage _)] at h
    obtain ⟨p, st', hp, -, rfl⟩ := addName_stage h
    exact ⟨st', _, rfl, rdataAdded_name hp (hnames _ (by simp [rdNames, hk]))
      (by simp [rdNames, hk]; rfl) (by simp [rdStrs, hk])⟩
  | soa =>
    simp only [hk] at h
    obtain ⟨_, m1, h1, h⟩ := (bind_ok _ _ _ _ _).mp h
    obtain ⟨p, st1, hp, -, rfl⟩ := addName_stage h1
    obtain ⟨q, st2, hq, h2⟩ := addNameUnchecked_stage m sc st1 _ src.rdata.soaRname
      (fun _ => Rdata.setSoaRname)
    rw [bind_of_ok h2, modifyRdata_stage] at h
    cases h
    have hpair := rdataAdded_pair hp (hnames _ (by simp [rdNames, hk])) hq
      (hnames src.rdata.soaRname (by simp [rdNames, hk]))
    refine ⟨st2, _, rfl, hpair.1, ?_, by simp [rdStrs, hk], ?_⟩
    · simp only [rdNames, hk]
      exact hpair.2.1
    · simp only [rdNames, rdStrs, hk]
      exact hpair.2.2
  | hinfo =>
    simp only [hk] at h
    obtain ⟨p, st1, hp, h1⟩ := addNameUnchecked_stage m sc st r src.rdata.hinfoCpuStr
      Rdata.setHinfoCpuStr
    obtain ⟨q, st2, hq, h2⟩ := addNameUnchecked_stage m sc st1
      { r with rdata := Rdata.setHinfoCpuStr m.base p r.rdata } src.rdata.hinfoOsStr
      (fun _ => Rdata.setHinfoOsStr)
    rw [bind_of_ok h1, h2] at h
    cases h
    have hpair := rdataAdded_pair (P := fun _ => True) hp trivial hq trivial
    refine ⟨st2, _, rfl, hpair.1, by simp [rdNames, hk], ?_, ?_⟩
    · simp only [rdStrs, hk]
      exact hpair.2.1
    · simp only [rdNames, rdStrs, hk]
      exact hpair.2.2
  | txt =>
    simp only [hk] at h
    obtain ⟨hzero, hlen⟩ := hfree hk
    obtain ⟨ps, st', rd, hlater, rfl, hptrs, -, hshown, hweight⟩ := addTxt_stage hcount hlen h
    have hps : rdStrs src.rrType rd = ps := by
      simp only [rdStrs, hk, hptrs]
      simp [txtPtrs, hzero]
    have hn : rdNames src.rrType rd = [] := by simp [rdNames, hk]
    refine ⟨st', rd, rfl, hlater, by simp [hn], by rwa [hps], ?_⟩
    rw [hn, hps]
    exact hweight

def stageFrame (m : DnsMsg) (sc : Sect) : Frame DnsMsg ℤ Empty where
  keep s t := ∀ st r, s = stage m sc st r → ∃ st' r', Later st st' ∧ t = stage m sc st' r'
  leave s c t := c = -1 ∧
    ∀ st r, s = stage m sc st r → ∃ st' r', Later st st' ∧ t = stage m sc st' r'
  raise _ := True
  refl _ st r h := ⟨st, r, .refl _, h⟩
  trans h1 h2 st r h := by
    obtain ⟨st1, r1, hl, h⟩ := h1 st r h
    obtain ⟨st2, r2, hl', h⟩ := h2 st1 r1 h
    exact ⟨st2, r2, hl.trans hl', h⟩
  lift h1 h2 := ⟨h2.1, fun st r h => by
    obtain ⟨st1, r1, hl, h⟩ := h1 st r h
    obtain ⟨st2, r2, hl', h⟩ := h2.2 st1 r1 h
    exact ⟨st2, r2, hl.trans hl', h⟩⟩

end Stage

/-- A frame that the writes of a call to section `sc` keep. -/
structure Fills (sc : Sect) (F : Frame DnsMsg ℤ Empty) : Prop where
  store : ∀ m {str : Bytes} {off : ℕ} {st : NameStore},
    msgStoreStr m.store str = some (off, st) → F.keep m { m with store := st }
  slot : ∀ m {f : DnsRr Ptr → DnsRr Ptr}, KeepsTxt f → F.keep m (m.modifySlot sc f)
  fail : ∀ m, F.leave m (-1) m

section Fills

variable {sc : Sect} {F : Frame DnsMsg ℤ Empty} (hF : Fills sc F)
include hF

theorem keeps_storeStr (str : Bytes) : Keeps F (storeStr str) := by
  refine .of_ok fun s => ?_
  unfold storeStr
  cases h : msgStoreStr s.store str with
  | none => exact ⟨_, _, rfl, F.refl s⟩
  | some q => exact ⟨_, _, rfl, hF.store s h⟩

theorem keeps_fillSlot {f : DnsRr Ptr → DnsRr Ptr} (hf : KeepsTxt f) :
    Keeps F (modifySlot sc f) := keeps_modify fun s => hF.slot s hf

theorem keeps_fillRdata {f : ℕ → Rdata Ptr → Rdata Ptr}
    (hf : ∀ base r, (f base r).txtStr.length = r.txtStr.length) : Keeps F (modifyRdata sc f) :=
  keeps_modify fun s => hF.slot s fun r => hf s.base r.rdata

theorem keeps_fail (p : Prop) [Decidable p] : Keeps F (when p (exit (-1)) : Build Unit) :=
  keeps_when p fun _ => keeps_exit hF.fail

theorem keeps_addName (str : Str) {f : ℕ → Ptr → Rdata Ptr → Rdata Ptr}
    (hf : ∀ base p r, (f base p r).txtStr.length = r.txtStr.length) :
    Keeps F (addName sc str f) :=
  (keeps_storeStr hF _).bind fun p => (keeps_fillRdata hF fun base => hf base p).bind fun _ =>
    keeps_fail hF _

theorem keeps_addNameUnchecked (str : Str) {f : ℕ → Ptr → Rdata Ptr → Rdata Ptr}
    (hf : ∀ base p r, (f base p r).txtStr.length = r.txtStr.length) :
    Keeps F (addNameUnchecked sc str f) :=
  (keeps_storeStr hF _).bind fun p => keeps_fillRdata hF fun base => hf base p

theorem keeps_addTxt (strs : List Str) : Keeps F (addTxt sc strs) := by
  induction strs with
  | nil => exact keeps_pure _
  | cons str rest ih =>
    exact keeps_get.bind fun _ => (keeps_fail hF _).bind fun _ => (keeps_storeStr hF _).bind
      fun _ => (keeps_fillRdata hF fun _ _ => by exact List.length_set).bind fun _ =>
      (keeps_fail hF _).bind fun _ => (keeps_fillRdata hF fun _ _ => by rfl).bind fun _ => ih

theorem keeps_addRdata (src : DnsRr Str) : Keeps F (addRdata sc src) := by
  unfold addRdata
  split
  · exact keeps_fillRdata hF fun _ _ => by rfl
  · exact keeps_addName hF _ fun _ _ _ => by rfl
  · exact keeps_addName hF _ fun _ _ _ => by rfl
  · exact (keeps_addName hF _ fun _ _ _ => by rfl).bind fun _ =>
      (keeps_addNameUnchecked hF _ fun _ _ _ => by exact List.length_set).bind fun _ =>
      keeps_fillRdata hF fun _ _ => by simp [Rdata.setSoaVals, Rdata.word]
  · exact keeps_addName hF _ fun _ _ _ => by rfl
  · exact (keeps_addNameUnchecked hF _ fun _ _ _ => by rfl).bind fun _ =>
      keeps_addNameUnchecked hF _ fun _ _ _ => by exact List.length_set
  · exact (keeps_fillRdata hF fun _ _ => by rfl).bind fun _ =>
      keeps_addName hF _ fun _ _ _ => by exact List.length_set
  · exact keeps_addTxt hF _
  · exact keeps_fillRdata hF fun _ => by exact length_setAaaa _
  · exact (keeps_fillRdata hF fun _ _ => by rfl).bind fun _ =>
      keeps_addName hF _ fun _ _ _ => by exact List.length_set
  · exact keeps_pure _
  · exact keeps_fillRdata hF fun _ _ => by rfl
  · exact keeps_pure _

omit hF in
/-- The statements of `dns_sect_add_rr` between the check for a free slot and the count. -/
def sectFill (sc : Sect) (src : DnsRr Str) : Build Unit := do
  let p ← storeStr src.name.bytes
  modifySlot sc fun r => { r with name := p }
  when (p = .null) (exit (-1))
  modifySlot sc fun r =>
    { r with rrType := src.rrType, rrClass := src.rrClass, ttl := src.ttl }
  addRdata sc src

omit hF in
theorem dnsSectAddRr_eq (src : DnsRr Str) : dnsSectAddRr sc src =
    (get >>= fun m => when (dnsMaxRr ≤ (m.sect sc).count) (exit (-1)) >>= fun _ =>
      sectFill sc src >>= fun _ => modify (fun m => m.countUp sc) >>= fun _ => pure 0) := by
  simp only [dnsSectAddRr, sectFill, bind_assoc]

theorem keeps_sectFill (src : DnsRr Str) : Keeps F (sectFill sc src) :=
  (keeps_storeStr hF _).bind fun _ => (keeps_fillSlot hF fun _ => by rfl).bind fun _ =>
    (keeps_fail hF _).bind fun _ => (keeps_fillSlot hF fun _ => by rfl).bind fun _ =>
    keeps_addRdata hF src

end Fills

theorem stageFrame_fills (m : DnsMsg) (sc : Sect) : Fills sc (stageFrame m sc) where
  store s _ _ st h st0 r hs := by
    subst hs
    rw [stage_store] at h
    exact ⟨st, r, (msgStoreStr_some h).2.1, stage_setStore _ _ _ _ _⟩
  slot s f _ st r hs := ⟨st, f r, .refl _, by rw [hs, stage_modifySlot]⟩
  fail _ := ⟨rfl, fun st r h => ⟨st, r, .refl _, h⟩⟩

/-- A call that fails leaves its traces in the next slot only. -/
theorem dnsSectAddRr_exit {m t : DnsMsg} {sc : Sect} {src : DnsRr Str} {rc : ℤ}
    (h : dnsSectAddRr sc src m = .exit rc t) :
    rc = -1 ∧ ∃ st r, Later m.store st ∧ t = stage m sc st r := by
  have hF := stageFrame_fills m sc
  have hleaves : Leaves (stageFrame m sc) (dnsSectAddRr sc src) := by
    rw [dnsSectAddRr_eq]
    exact keeps_get.leaves_bind fun _ => (keeps_fail hF _).leaves_bind fun _ =>
      (keeps_sectFill hF src).leaves_bind fun _ => fun h => by cases h
  exact ⟨(hleaves h).1, (hleaves h).2 _ _ (stage_self m sc).symm⟩

/-- A call that succeeds stored the owner name and then filled in the RDATA. -/
theorem dnsSectAddRr_front {m t : DnsMsg} {sc : Sect} {src : DnsRr Str} {rc : ℤ}
    (h : dnsSectAddRr sc src m = .ok rc t) :
    rc = 0 ∧ (m.sect sc).count < dnsMaxRr ∧ ∃ p st u, Puts m.store src.name.bytes p st ∧
      p ≠ .null ∧ t = u.countUp sc ∧ addRdata sc src (stage m sc st
        { slot m sc with
          name := p, rrType := src.rrType, rrClass := src.rrClass, ttl := src.ttl }) =
            .ok () u := by
  unfold dnsSectAddRr at h
  rw [bind_of_ok (get_run m)] at h
  by_cases hfull : dnsMaxRr ≤ (m.sect sc).count
  · rw [bind_when_pos hfull] at h
    cases h
  rw [bind_when_neg hfull] at h
  obtain ⟨p, st, hp, hs⟩ := storeStr_stage m sc m.store (slot m sc) src.name.bytes
  rw [stage_self] at hs
  rw [bind_of_ok hs, bind_of_ok (modifySlot_stage _)] at h
  by_cases hn : p = .null
  · rw [bind_when_pos hn] at h
    cases h
  rw [bind_when_neg hn, bind_of_ok (modifySlot_stage _)] at h
  obtain ⟨_, u, hu, h⟩ := (bind_ok _ _ _ _ _).mp h
  cases h
  exact ⟨rfl, Nat.lt_of_not_le hfull, p, st, u, hp, hn, rfl, hu⟩

/-- A call that succeeds appends one record, whose strings take the room that
was used. -/
theorem dnsSectAddRr_ok {N : List Bytes → Prop} {m t : DnsMsg} {sc : Sect} {src : DnsRr Str}
    {rc : ℤ} (hname : NameText N src.name.bytes)
    (hnames : ∀ s ∈ rdNames src.rrType src.rdata, NameText N s.bytes)
    (hfree : (m.sect sc).count < dnsMaxRr → rrKind src.rrType = .txt → FreeTxt (slot m sc).rdata)
    (h : dnsSectAddRr sc src m = .ok rc t) :
    rc = 0 ∧ (m.sect sc).count < dnsMaxRr ∧ ∃ st r, Later m.store st ∧
      t = (stage m sc st r).countUp sc ∧ r.rrType = src.rrType ∧ SlotOk N st r ∧
      st.len = m.store.len+weight st (rrPtrs r) := by
  obtain ⟨rfl, hcount, p, st1, m1, hp, hn, rfl, hm1⟩ := dnsSectAddRr_front h
  obtain ⟨st2, rd, rfl, hadd⟩ := addRdata_stage hcount hnames (by exact hfree hcount) hm1
  obtain ⟨h1, h2⟩ := hp.shown hname (zero_notMem_bytes _)
  have hw := strWeight_later hadd.later h1
  refine ⟨rfl, hcount, st2, _, hp.later.trans hadd.later, rfl, rfl,
    ⟨(h1.resolve_left hn).later hadd.later, hadd.names, hadd.strs⟩, ?_⟩
  have hlen := hadd.len
  simp only [weight, rrPtrs, List.map_cons, List.sum_cons] at hlen ⊢
  omega

/-- Whatever strings the slot held before, the record shows its owner name. -/
theorem dnsSectAddRr_named {N : List Bytes → Prop} {m t : DnsMsg} {sc : Sect} {src : DnsRr Str}
    {rc : ℤ} (hname : NameText N src.name.bytes)
    (hnames : ∀ s ∈ rdNames src.rrType src.rdata, NameText N s.bytes)
    (hlen : (slot m sc).rdata.txtStr.length = dnsMaxTxt)
    (h : dnsSectAddRr sc src m = .ok rc t) :
    (m.sect sc).count < dnsMaxRr ∧ ∃ st r, Later m.store st ∧
      t = (stage m sc st r).countUp sc ∧ Shown (NameText N) st r.name := by
  obtain ⟨-, hcount, p, st1, m1, hp, hn, rfl, hm1⟩ := dnsSectAddRr_front h
  have hshown := (hp.shown hname (zero_notMem_bytes _)).1.resolve_left hn
  by_cases hk : rrKind src.rrType = .txt
  · unfold addRdata at hm1
    simp only [hk] at hm1
    obtain ⟨ps, st2, rd, hlater, rfl, -⟩ := addTxt_stage hcount (by exact hlen) hm1
    exact ⟨hcount, st2, _, hp.later.trans hlater, rfl, hshown.later hlater⟩
  · obtain ⟨st2, rd, rfl, hadd⟩ := addRdata_stage hcount hnames (fun h => absurd h hk) hm1
    exact ⟨hcount, st2, _, hp.later.trans hadd.later, rfl, hshown.later hadd.later⟩

theorem code_pair {p : ℤ × DnsMsg} {rc : ℤ} (h : p.1 = rc) : p = (rc, p.2) := by
  rw [← h]

/-- Messages built from a zeroed one. The names satisfy `N`, the record types
`K`, and the code of every call `C`. -/
inductive Built (N : List Bytes → Prop) (K : RrKind → Prop) (C : ℤ → Prop) : DnsMsg → Prop
  | zero (base : ℕ) : Built N K C (zeroMsg base)
  | init {m : DnsMsg} (h : Built N K C m) (id flags : UInt16) :
      Built N K C (dnsMsgInit m id flags)
  | addQd {m : DnsMsg} (h : Built N K C m) (qname : Str) (qtype qclass : UInt16)
      (hq : NameText N qname.bytes) (hc : C (dnsAddQd m qname qtype qclass).1) :
      Built N K C (dnsAddQd m qname qtype qclass).2
  | addRr {m : DnsMsg} (h : Built N K C m) (sc : ℤ) (src : DnsRr Str)
      (hk : K (rrKind src.rrType)) (hn : NameText N src.name.bytes)
      (hr : ∀ s ∈ rdNames src.rrType src.rdata, NameText N s.bytes)
      (hc : C (dnsAddRr m sc (some src)).1) : Built N K C (dnsAddRr m sc (some src)).2

def qdWeight (m : DnsMsg) : ℕ := if m.qdLen = 1 then strWeight m.store m.qd.qname else 0

def sectWeight (m : DnsMsg) (sc : Sect) : ℕ :=
  ((records m sc).map fun r => weight m.store (rrPtrs r)).sum

structure MsgOk (N : List Bytes → Prop) (K : RrKind → Prop) (m : DnsMsg) : Prop where
  qd : m.qdLen = 1 → Shown (NameText N) m.store m.qd.qname
  slots : ∀ sc, ∀ r ∈ records m sc, SlotOk N m.store r ∧ K (rrKind r.rrType)
  room : qdWeight m+sectWeight m .an+sectWeight m .ns+sectWeight m .ar ≤ m.store.len

def FreeSlots (m : DnsMsg) : Prop :=
  ∀ sc, ∀ r ∈ (m.sect sc).slots.drop (m.sect sc).count, FreeTxt r.rdata

variable {N : List Bytes → Prop} {K : RrKind → Prop} {C : ℤ → Prop}

theorem msgOk_zero (base : ℕ) : MsgOk N K (zeroMsg base) where
  qd h := by cases h
  slots sc r hr := by cases sc <;> simp [records, zeroMsg, DnsMsg.sect, zeroSect] at hr
  room := by simp [qdWeight, sectWeight, records, zeroMsg, DnsMsg.sect, zeroSect]

/-- A message with the same records and questions and a later store. -/
theorem MsgOk.later {m t : DnsMsg} (h : MsgOk N K m) (hst : Later m.store t.store)
    (hqd : t.qdLen = m.qdLen ∧ (m.qdLen = 1 → t.qd.qname = m.qd.qname))
    (hrec : ∀ sc, records t sc = records m sc) : MsgOk N K t := by
  have hqw : qdWeight t = qdWeight m := by
    unfold qdWeight
    rw [hqd.1]
    split
    · next h1 => rw [hqd.2 h1, strWeight_later hst (.inr (h.qd h1))]
    · rfl
  have hsw (sc : Sect) : sectWeight t sc = sectWeight m sc := by
    unfold sectWeight
    rw [hrec]
    congr 1
    exact List.map_congr_left fun r hr => (h.slots sc r hr).1.weight_later hst
  refine ⟨fun h1 => ?_, fun sc r hr => ?_, ?_⟩
  · rw [hqd.1] at h1
    rw [hqd.2 h1]
    exact (h.qd h1).later hst
  · rw [hrec] at hr
    exact ⟨(h.slots sc r hr).1.later hst, (h.slots sc r hr).2⟩
  · rw [hqw, hsw, hsw, hsw]
    exact h.room.trans hst.len

@[simp] theorem countUp_store (m : DnsMsg) (sc : Sect) : (m.countUp sc).store = m.store := by
  unfold DnsMsg.countUp
  dsimp only
  split
  · cases sc <;> rfl
  · rfl

@[simp] theorem countUp_qd (m : DnsMsg) (sc : Sect) :
    (m.countUp sc).qd = m.qd ∧ (m.countUp sc).qdLen = m.qdLen := by
  unfold DnsMsg.countUp
  dsimp only
  split
  · cases sc <;> exact ⟨rfl, rfl⟩
  · exact ⟨rfl, rfl⟩

theorem MsgOk.push {m : DnsMsg} (h : MsgOk N K m) {sc : Sect} {st : NameStore} {r : DnsRr Ptr}
    (hcount : (m.sect sc).count < dnsMaxRr) (hst : Later m.store st) (hr : SlotOk N st r)
    (hk : K (rrKind r.rrType)) (hlen : st.len = m.store.len+weight st (rrPtrs r)) :
    MsgOk N K ((stage m sc st r).countUp sc) := by
  have hstage : MsgOk N K (stage m sc st r) :=
    h.later (by rw [stage_store]; exact hst) ⟨stage_qdLen m sc st r, fun _ => by rw [stage_qd]⟩
      (records_stage st r)
  have hrec := countUp_records st r hcount
  have hroom : qdWeight (stage m sc st r)+sectWeight (stage m sc st r) .an+
      sectWeight (stage m sc st r) .ns+sectWeight (stage m sc st r) .ar ≤ m.store.len := by
    have hq : qdWeight (stage m sc st r) = qdWeight m := by
      unfold qdWeight
      rw [stage_qdLen, stage_qd, stage_store]
      split
      · next h1 => exact strWeight_later hst (.inr (h.qd h1))
      · rfl
    have hs (sc' : Sect) : sectWeight (stage m sc st r) sc' = sectWeight m sc' := by
      unfold sectWeight
      rw [records_stage, stage_store]
      congr 1
      exact List.map_congr_left fun r hr => (h.slots sc' r hr).1.weight_later hst
    rw [hq, hs, hs, hs]
    exact h.room
  have hother {sc' : Sect} (hne : sc' ≠ sc) :
      sectWeight ((stage m sc st r).countUp sc) sc' = sectWeight (stage m sc st r) sc' := by
    unfold sectWeight
    rw [countUp_records_ne hne, countUp_store]
  have hself : sectWeight ((stage m sc st r).countUp sc) sc =
      sectWeight (stage m sc st r) sc+weight st (rrPtrs r) := by
    unfold sectWeight
    rw [hrec, countUp_store, stage_store, records_stage, List.map_append, List.sum_append]
    simp
  have hqw : qdWeight ((stage m sc st r).countUp sc) = qdWeight (stage m sc st r) := by
    unfold qdWeight
    rw [(countUp_qd _ _).1, (countUp_qd _ _).2, countUp_store]
  refine ⟨fun h1 => ?_, fun sc' x hx => ?_, ?_⟩
  · rw [(countUp_qd _ _).2] at h1
    rw [(countUp_qd _ _).1, countUp_store]
    exact hstage.qd h1
  · rw [countUp_store]
    by_cases hsc : sc' = sc
    · subst hsc
      rw [hrec] at hx
      rcases List.mem_append.mp hx with hx | hx
      · exact hstage.slots sc' x (by rwa [records_stage])
      · obtain rfl := List.mem_singleton.mp hx
        rw [stage_store]
        exact ⟨hr, hk⟩
    · rw [countUp_records_ne hsc] at hx
      exact hstage.slots sc' x hx
  · rw [hqw, countUp_store, stage_store, hlen]
    cases sc
    · rw [hself, hother (by simp), hother (by simp)]
      omega
    · rw [hself, hother (by simp), hother (by simp)]
      omega
    · rw [hself, hother (by simp), hother (by simp)]
      omega

theorem MsgOk.addQd {m : DnsMsg} (h : MsgOk N K m) (qname : Str) (qtype qclass : UInt16)
    (hq : NameText N qname.bytes) : MsgOk N K (dnsAddQd m qname qtype qclass).2 := by
  unfold dnsAddQd dnsAddQdn
  split
  · next hlt =>
    have hzero : m.qdLen = 0 := by
      have : m.qdLen+1 ≤ 1 := hlt
      omega
    cases hs : msgStoreStr m.store qname.bytes with
    | none => exact h.later (.refl _) ⟨rfl, fun h1 => by omega⟩ fun sc => by cases sc <;> rfl
    | some q =>
      have hputs : Puts m.store qname.bytes (.ref q.1) q.2 := .inl ⟨q.1, hs, rfl⟩
      obtain ⟨h1, h2⟩ := hputs.shown hq (zero_notMem_bytes qname)
      have hmid : MsgOk N K { m with store := q.2 } :=
        h.later hputs.later ⟨rfl, fun _ => rfl⟩ fun sc => by cases sc <;> rfl
      have hroom := h.room
      have hsw (sc : Sect) : sectWeight { m with store := q.2 } sc = sectWeight m sc := by
        unfold sectWeight
        have hrec : records { m with store := q.2 } sc = records m sc := by cases sc <;> rfl
        rw [hrec]
        congr 1
        exact List.map_congr_left fun r hr => (h.slots sc r hr).1.weight_later hputs.later
      refine ⟨fun _ => h1.resolve_left (by simp), fun sc r hr => ?_, ?_⟩
      · exact hmid.slots sc r (by cases sc <;> exact hr)
      · have hw := hsw .an
        have hw' := hsw .ns
        have hw'' := hsw .ar
        simp only [qdWeight, hzero, sectWeight, records, DnsMsg.sect] at hw hw' hw'' hroom ⊢
        simp only [Nat.zero_add, if_true, Nat.zero_ne_one, if_false] at hroom ⊢
        omega
  · exact h

/-- What holds of the free slots holds of those that are left when one is filled. -/
theorem free_push {Q : DnsRr Ptr → Prop} {m : DnsMsg}
    (h : ∀ sc, ∀ r ∈ (m.sect sc).slots.drop (m.sect sc).count, Q r) {sc : Sect}
    {st : NameStore} {r : DnsRr Ptr} (hcount : (m.sect sc).count < dnsMaxRr) (sc' : Sect) :
    ∀ x ∈ (((stage m sc st r).countUp sc).sect sc').slots.drop
      (((stage m sc st r).countUp sc).sect sc').count, Q x := by
  intro x hx
  have hc : ((stage m sc st r).sect sc).count+1 ≤ dnsMaxRr := by
    rw [stage_count]
    exact hcount
  by_cases hsc : sc' = sc
  · subst hsc
    have hslots : (((stage m sc' st r).countUp sc').sect sc').slots.drop
        (((stage m sc' st r).countUp sc').sect sc').count =
        ((m.sect sc').slots.modify (m.sect sc').count fun _ => r).drop ((m.sect sc').count+1) := by
      unfold DnsMsg.countUp
      dsimp only
      rw [dif_pos hc]
      cases sc' <;> rfl
    rw [hslots, List.drop_modify_of_lt _ _ _ _ (by omega)] at hx
    refine h sc' x ?_
    rw [← List.drop_drop] at hx
    exact List.mem_of_mem_drop hx
  · have hsect : ((stage m sc st r).countUp sc).sect sc' = m.sect sc' := by
      rw [← stage_sect_ne m sc st r hsc]
      unfold DnsMsg.countUp
      dsimp only
      rw [dif_pos hc]
      cases sc <;> cases sc' <;> first | rfl | exact absurd rfl hsc
    rw [hsect] at hx
    exact h sc' x hx

theorem freeSlots_slot {m : DnsMsg} (h : FreeSlots m) {sc : Sect}
    (hcount : (m.sect sc).count < dnsMaxRr) : FreeTxt (slot m sc).rdata := by
  have hlt : (m.sect sc).count < (m.sect sc).slots.length := by
    rw [(m.sect sc).size]
    exact hcount
  refine h sc _ ?_
  rw [slot, List.getD_eq_getElem?_getD, List.getElem?_eq_getElem hlt, List.drop_eq_getElem_cons hlt]
  exact List.mem_cons_self

theorem freeSlots_zero (base : ℕ) : FreeSlots (zeroMsg base) := by
  intro sc r hr
  have hmem := List.mem_of_mem_drop hr
  have hz : r = zeroRr .null := by
    cases sc <;> exact List.eq_of_mem_replicate hmem
  rw [hz]
  exact ⟨rfl, List.length_replicate⟩

/-- What the API keeps true. Text records need that no call failed, because a
failed call leaves its strings in the slot. -/
theorem Built.ok (hC : (∀ k, K k → k ≠ .txt) ∨ ∀ c, C c → c = 0) {m : DnsMsg}
    (h : Built N K C m) : MsgOk N K m ∧ ((∀ c, C c → c = 0) → FreeSlots m) := by
  induction h with
  | zero base => exact ⟨msgOk_zero base, fun _ => freeSlots_zero base⟩
  | init h id flags ih =>
    exact ⟨ih.1.later (.refl _) ⟨rfl, fun _ => rfl⟩ fun sc => by cases sc <;> rfl,
      fun hc sc r hr => ih.2 hc sc r (by cases sc <;> exact hr)⟩
  | @addQd m h qname qtype qclass hq hc ih =>
    refine ⟨ih.1.addQd qname qtype qclass hq, fun hc sc r hr => ih.2 hc sc r ?_⟩
    have hsect : (dnsAddQd m qname qtype qclass).2.sect sc = m.sect sc := by
      unfold dnsAddQd dnsAddQdn
      split
      · split <;> cases sc <;> rfl
      · rfl
    rwa [hsect] at hr
  | @addRr m h sc src hk hn hr hc ih =>
    unfold dnsAddRr at hc ⊢
    cases hsc : sectOfCode sc with
    | none => exact ih
    | some sect =>
      rw [hsc] at hc
      dsimp only at hc ⊢
      cases hrun : dnsSectAddRr sect src m with
      | fault c => exact c.elim
      | exit rc t =>
        obtain ⟨rfl, st, r, hst, rfl⟩ := dnsSectAddRr_exit hrun
        refine ⟨ih.1.later (by simpa [returned] using hst) ⟨by simp [returned], fun _ => by
          simp [returned]⟩ fun sc => by simp [returned], fun hz => ?_⟩
        rw [hrun] at hc
        exact absurd (hz _ hc) (by simp [returned])
      | ok rc t =>
        have hfree (hlt : (m.sect sect).count < dnsMaxRr) (ht : rrKind src.rrType = .txt) :
            FreeTxt (slot m sect).rdata := by
          rcases hC with hno | hz
          · exact absurd ht (hno _ hk)
          · exact freeSlots_slot (ih.2 hz) hlt
        obtain ⟨rfl, hcount, st, r, hst, rfl, htype, hslot, hlen⟩ :=
          dnsSectAddRr_ok hn hr hfree hrun
        exact ⟨ih.1.push hcount hst hslot (htype ▸ hk) hlen, fun hz => free_push (ih.2 hz) hcount⟩

end DnsPkt.MessageBuild
