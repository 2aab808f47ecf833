import DnsPkt.RecordView
import DnsPkt.RecordChain
import DnsPkt.LoaderVerdict

/-!
# Records that are loaded

A record on the wire is loaded into the free slot of a section when its
strings have no zero byte in them and fit the string store. The slot then
shows the record. Otherwise the decode leaves early, or the slot shows
something else.
-/

set_option autoImplicit false

namespace DnsPkt.LoadedRecord
open DnsPkt.CheckedRun DnsPkt.CheckedRun.Run DnsPkt.Octets DnsPkt.Protocol
open DnsPkt.MessageStore DnsPkt.MessageSlots DnsPkt.MessageBuild DnsPkt.RecordDecoder
open DnsPkt.MessageDecoder DnsPkt.RecordRun DnsPkt.RecordEntry DnsPkt.RecordView
open DnsPkt.RecordFrame DnsPkt.RecordChain DnsPkt.LoaderVerdict

structure Clean (st : NameStore) (xs : List Bytes) : Prop where
  short : ∀ x ∈ xs, x.length ≤ dnsNameMaxstr
  room : st.len+storeSize xs ≤ dnsMaxPdusize
  plain : ∀ x ∈ xs, (0 : UInt8) ∉ x

/-- What is stored for strings: all of a string, or the part in front of a zero byte. -/
def Copies : List Bytes → List Bytes → Prop := List.Forall₂ fun x s => s = x ∨ s = cstr x

theorem copies_plain {xs ss : List Bytes} (h : Copies xs ss) (h0 : ∀ x ∈ xs, (0 : UInt8) ∉ x) :
    ss = xs := by
  induction h with
  | nil => rfl
  | @cons x s xs ss hs _ ih =>
    have hx : s = x := hs.elim id fun h => h.trans (cstr_of_no_zero _ (h0 x List.mem_cons_self))
    rw [hx, ih fun y hy => h0 y (List.mem_cons_of_mem _ hy)]

theorem storeSize_append (xs ys : List Bytes) :
    storeSize (xs ++ ys) = storeSize xs+storeSize ys := by
  rw [storeSize, List.map_append, List.sum_append, storeSize, storeSize]

theorem storeSize_cons (x : Bytes) (xs : List Bytes) :
    storeSize (x :: xs) = x.length+1+storeSize xs := by
  rw [storeSize, List.map_cons, List.sum_cons, storeSize]

theorem putsAll_fits {ss : List Bytes} {ps : List Ptr} {st st' : NameStore}
    (h : PutsAll st ss ps st') (hle : ∀ s ∈ ss, s.length ≤ dnsNameMaxstr)
    (hfit : st.len+storeSize ss ≤ dnsMaxPdusize) :
    (∀ p ∈ ps, p ≠ .null) ∧ st'.len = st.len+storeSize ss := by
  induction ss generalizing ps st with
  | nil =>
    cases ps with
    | nil =>
      obtain rfl : st' = st := h
      exact ⟨fun p hp => absurd hp List.not_mem_nil, rfl⟩
    | cons p ps => exact h.elim
  | cons s ss ih =>
    cases ps with
    | nil => exact h.elim
    | cons p ps =>
      obtain ⟨st1, hp, hr⟩ := h
      rw [storeSize_cons] at hfit ⊢
      have hsome : (msgStoreStr st s).isSome :=
        msgStoreStr_isSome.mpr ⟨hle s List.mem_cons_self, by omega⟩
      rcases hp with ⟨off, h1, rfl⟩ | ⟨hnone, -, -⟩
      · have hlen := (msgStoreStr_some h1).2.2.1
        obtain ⟨hne, hlen'⟩ := ih hr (fun x hx => hle x (List.mem_cons_of_mem _ hx)) (by omega)
        refine ⟨fun q hq => ?_, by omega⟩
        rcases List.mem_cons.mp hq with rfl | hq
        · exact Ptr.noConfusion
        · exact hne q hq
      · rw [hnone] at hsome
        cases hsome

/-- Strings that were all stored had room. -/
theorem putsAll_room {ss : List Bytes} {ps : List Ptr} {st st' : NameStore}
    (h : PutsAll st ss ps st') (hne : ∀ p ∈ ps, p ≠ .null) :
    (∀ s ∈ ss, s.length ≤ dnsNameMaxstr) ∧ st.len+storeSize ss ≤ dnsMaxPdusize := by
  induction ss generalizing ps st with
  | nil =>
    cases ps with
    | nil => exact ⟨fun s hs => absurd hs List.not_mem_nil, st.fits⟩
    | cons p ps => exact h.elim
  | cons s ss ih =>
    cases ps with
    | nil => exact h.elim
    | cons p ps =>
      obtain ⟨st1, hp, hr⟩ := h
      obtain ⟨hle, hfit⟩ := ih hr fun q hq => hne q (List.mem_cons_of_mem _ hq)
      rcases hp with ⟨off, h1, -⟩ | ⟨-, hnull, -⟩
      · obtain ⟨-, -, hlen, hshort⟩ := msgStoreStr_some h1
        rw [storeSize_cons]
        refine ⟨fun x hx => ?_, by omega⟩
        rcases List.mem_cons.mp hx with rfl | hx
        · exact hshort
        · exact hle x hx
      · exact absurd hnull (hne p List.mem_cons_self)

section Clean

variable {st st' : NameStore} {xs ys ss : List Bytes} {ps : List Ptr}

theorem Clean.puts (h : Clean st xs) (hc : Copies xs ss) (hp : PutsAll st ss ps st') :
    ss = xs ∧ (∀ p ∈ ps, p ≠ .null) ∧ st'.len = st.len+storeSize xs := by
  obtain rfl := copies_plain hc h.plain
  exact ⟨rfl, putsAll_fits hp h.short h.room⟩

theorem clean_append : Clean st (xs ++ ys) ↔ Clean st xs ∧ (∀ y ∈ ys, y.length ≤ dnsNameMaxstr) ∧
    st.len+storeSize xs+storeSize ys ≤ dnsMaxPdusize ∧ ∀ y ∈ ys, (0 : UInt8) ∉ y := by
  constructor
  · intro h
    have hroom := h.room
    rw [storeSize_append] at hroom
    exact ⟨⟨fun x hx => h.short x (List.mem_append_left _ hx), by omega,
      fun x hx => h.plain x (List.mem_append_left _ hx)⟩,
      fun y hy => h.short y (List.mem_append_right _ hy), by omega,
      fun y hy => h.plain y (List.mem_append_right _ hy)⟩
  · rintro ⟨h, hshort, hroom, hplain⟩
    refine ⟨fun z hz => ?_, by rw [storeSize_append]; omega, fun z hz => ?_⟩
    · exact (List.mem_append.mp hz).elim (h.short z) (hshort z)
    · exact (List.mem_append.mp hz).elim (h.plain z) (hplain z)

/-- Strings that fit together fit one after the other. -/
theorem Clean.split (h : Clean st (xs ++ ys)) :
    Clean st xs ∧ ∀ {ss ps st'}, Copies xs ss → PutsAll st ss ps st' → Clean st' ys := by
  obtain ⟨hx, hshort, hroom, hplain⟩ := clean_append.mp h
  refine ⟨hx, fun hc hp => ⟨hshort, ?_, hplain⟩⟩
  obtain ⟨-, -, hlen⟩ := hx.puts hc hp
  rwa [hlen]

theorem clean_of_puts (hc : Copies xs ss) (hp : PutsAll st ss ps st') (hne : ∀ p ∈ ps, p ≠ .null)
    (h0 : ∀ x ∈ xs, (0 : UInt8) ∉ x) : Clean st xs := by
  obtain rfl := copies_plain hc h0
  obtain ⟨hshort, hroom⟩ := putsAll_room hp hne
  exact ⟨hshort, hroom, h0⟩

end Clean

/-- The statement stores the strings one after another and falls through. It leaves early
only when they cannot be stored, or when the room `G` was missing. -/
inductive Loads {α : Type} (m : DnsMsg) (sc : Sect) (G : Prop) (x : Dec α) (s : DecState)
    (st : NameStore) (xs : List Bytes) (Q : α → DecState → DnsRr Ptr → List Ptr → Prop) : Prop
  | ok {a : α} {t : DecState} {ss : List Bytes} {l : List Ptr} {u : NameStore} {r : DnsRr Ptr}
      (run : x s = .ok a t) (msg : t.msg = stage m sc u r) (copies : Copies xs ss)
      (puts : PutsAll st ss l u) (post : Q a t r l)
  | exit {c : ℤ} {t : DecState} (run : x s = .exit c t) (bad : ¬ (G ∧ Clean st xs))

section Loads

variable {α β : Type} {m : DnsMsg} {sc : Sect} {G : Prop} {s : DecState} {st : NameStore}
  {r : DnsRr Ptr} {xs l : List Bytes}

/-- What follows may rely on the strings before it. -/
theorem Loads.bind {x : Dec α} {f : α → Dec β} {R : α → DecState → DnsRr Ptr → List Ptr → Prop}
    {Q : β → DecState → DnsRr Ptr → List Ptr → Prop} (hx : Loads m sc G x s st xs R)
    (hf : ∀ a t st' r ps, t.msg = stage m sc st' r → R a t r ps →
      Loads m sc (G ∧ Clean st xs) (f a) t st' l fun b u r' qs => Q b u r' (ps ++ qs)) :
    Loads m sc G (x >>= f) s st (xs ++ l) Q := by
  cases hx with
  | exit run bad => exact .exit (bind_of_exit run f) fun h => bad ⟨h.1, h.2.split.1⟩
  | ok run msg copies puts post =>
    cases hf _ _ _ _ _ msg post with
    | ok run' msg' copies' puts' post' =>
      exact .ok ((bind_of_ok run f).trans run') msg' (List.rel_append copies copies')
        (puts.append puts') post'
    | exit run' bad =>
      exact .exit ((bind_of_ok run f).trans run') fun h =>
        bad ⟨⟨h.1, h.2.split.1⟩, h.2.split.2 copies puts⟩

theorem Loads.mono {x : Dec α} {H : Prop} {R Q : α → DecState → DnsRr Ptr → List Ptr → Prop}
    (hx : Loads m sc G x s st xs R) (hG : H → G) (hQ : ∀ a t r ps, R a t r ps → Q a t r ps) :
    Loads m sc H x s st xs Q := by
  cases hx with
  | ok run msg copies puts post => exact .ok run msg copies puts (hQ _ _ _ _ post)
  | exit run bad => exact .exit run fun h => bad ⟨hG h.1, h.2⟩

theorem Loads.congr {x y : Dec α} {Q : α → DecState → DnsRr Ptr → List Ptr → Prop}
    (hy : Loads m sc G y s st xs Q) (h : x s = y s) : Loads m sc G x s st xs Q := by
  cases hy with
  | ok run msg copies puts post => exact .ok (h.trans run) msg copies puts post
  | exit run bad => exact .exit (h.trans run) bad

theorem loads_of_ok {x : Dec α} {f : α → Dec β} {a : α} {t : DecState}
    {Q : β → DecState → DnsRr Ptr → List Ptr → Prop} (h : x s = .ok a t)
    (hf : Loads m sc G (f a) t st xs Q) : Loads m sc G (x >>= f) s st xs Q := by
  cases hf with
  | ok run msg copies puts post => exact .ok ((bind_of_ok h f).trans run) msg copies puts post
  | exit run bad => exact .exit ((bind_of_ok h f).trans run) bad

theorem loads_pure {a : α} {Q : α → DecState → DnsRr Ptr → List Ptr → Prop}
    (hs : s.msg = stage m sc st r) (h : Q a s r []) : Loads m sc G (pure a) s st [] Q :=
  .ok (l := []) (pure_run a s) hs .nil rfl h

/-- A string that is stored with a check. -/
theorem loads_loadStr {x str : Bytes} (hstr : str = x ∨ str = cstr x)
    (f : ℕ → Ptr → DnsRr Ptr → DnsRr Ptr) (hs : s.msg = stage m sc st r) :
    Loads m sc G (loadStr sc str f) s st [x] fun _ t r' ps =>
      t.dec = s.dec ∧ ∃ p, p ≠ .null ∧ ps = [p] ∧ r' = f m.base p r := by
  have hstore : s.msg.store = st := by rw [hs, stage_store]
  cases h : msgStoreStr st str with
  | none =>
    refine .exit (loadStr_full (by rw [hstore]; exact h) f) fun hgood => ?_
    have hsome := msgStoreStr_isSome.mpr ⟨hgood.2.short x (List.mem_singleton_self x),
      by have := hgood.2.room; rwa [storeSize_cons, storeSize] at this⟩
    have hx : str = x :=
      hstr.elim id fun h => h.trans (cstr_of_no_zero _
        (hgood.2.plain x (List.mem_singleton_self x)))
    rw [← hx, h] at hsome
    cases hsome
  | some q =>
    obtain ⟨off, st'⟩ := q
    have hrun : loadStr sc str f s = _ := loadStr_run (by rw [hstore]; exact h) f
    refine .ok hrun (u := st') (r := f m.base (.ref off) r) (l := [.ref off]) ?_
      (.cons hstr .nil) ⟨st', .inl ⟨off, h, rfl⟩, rfl⟩ ⟨rfl, .ref off, Ptr.noConfusion, rfl, rfl⟩
    rw [hs, stage_setStore, stage_modifySlot, stage_base]

/-- A string that is stored without a check. -/
theorem loads_storeInto {x str : Bytes} (hstr : str = x ∨ str = cstr x)
    (f : ℕ → Ptr → DnsRr Ptr → DnsRr Ptr) (hs : s.msg = stage m sc st r) :
    Loads m sc G (storeInto sc str f) s st [x] fun _ t r' ps =>
      t.dec = s.dec ∧ ∃ p, ps = [p] ∧ r' = f m.base p r := by
  have hstore : s.msg.store = st := by rw [hs, stage_store]
  cases h : msgStoreStr st str with
  | none =>
    have hrun : storeInto sc str f s = _ := storeInto_full (by rw [hstore]; exact h) f
    refine .ok hrun (u := st) (r := f m.base .null r) (l := [.null]) ?_ (.cons hstr .nil)
      ⟨st, .inr ⟨h, rfl, rfl⟩, rfl⟩ ⟨rfl, .null, rfl, rfl⟩
    rw [hs, stage_modifySlot, stage_base]
  | some q =>
    obtain ⟨off, st'⟩ := q
    have hrun : storeInto sc str f s = _ := storeInto_run (by rw [hstore]; exact h) f
    refine .ok hrun (u := st') (r := f m.base (.ref off) r) (l := [.ref off]) ?_
      (.cons hstr .nil) ⟨st', .inl ⟨off, h, rfl⟩, rfl⟩ ⟨rfl, .ref off, rfl, rfl⟩
    rw [hs, stage_setStore, stage_modifySlot, stage_base]

variable {env : DecEnv} (hl : env.loadMsg = true) (hd : env.needEmsg = false)

include hl in
theorem loadRdata_stage (hs : s.msg = stage m sc st r) (f : Rdata Ptr → Rdata Ptr) :
    ∃ t, loadRdata env sc f s = .ok () t ∧ t.dec = s.dec ∧
      t.msg = stage m sc st { r with rdata := f r.rdata } := by
  refine ⟨{ s with msg := s.msg.modifySlot sc fun r => { r with rdata := f r.rdata } }, ?_, rfl, ?_⟩
  · rw [loadRdata, when_pos hl]
    rfl
  · rw [hs, stage_modifySlot]

include hl in
theorem loads_loadName {w : ℕ} {x : Bytes} (hshow : Shows s w x)
    (f : ℕ → Ptr → DnsRr Ptr → DnsRr Ptr) (hs : s.msg = stage m sc st r) :
    Loads m sc G (loadName env sc w f) s st [x] fun _ t r' ps =>
      t.dec = s.dec ∧ ∃ p, p ≠ .null ∧ ps = [p] ∧ r' = f m.base p r :=
  (loads_loadStr (.inr rfl) f hs).congr (loadName_run hl hshow f)

/-- A name at the cursor `w`. The scratch buffer has room for any name that can be stored. -/
theorem loads_nameField {f : ℕ → Dec β} {field : DnsLocation} {w e : ℕ} {text : Bytes}
    {Q : β → DecState → DnsRr Ptr → List Ptr → Prop} (hw : w ≤ dnsMsgSize)
    (hat : NameAt env.pkt s.dec.offset text e) (hG : G → w+dnsNameMaxstr+1 ≤ dnsMsgSize)
    (hs : s.msg = stage m sc st r)
    (hf : ∀ t, t.msg = stage m sc st r → t.dec.offset = e → Shows t w (shown text) →
      w+(shown text).length+1 ≤ dnsMsgSize →
      Loads m sc G (f (shown text).length) t st (shown text :: l) Q) :
    Loads m sc G (nameField env field w >>= f) s st (shown text :: l) Q := by
  by_cases hroom : w+(shown text).length+1 ≤ dnsMsgSize
  · have hrun := nameField_run env field hat hroom
    exact loads_of_ok hrun (hf _ (by rw [moveTo_msg, put_msg, hs]) rfl (shows_put s hroom) hroom)
  · obtain ⟨c, t, hrun⟩ := nameField_exit env field hw fun text' e' hat' => by
      obtain ⟨rfl, -⟩ := hat.unique hat'
      exact Nat.lt_of_not_le hroom
    refine .exit (bind_of_exit hrun f) fun h => hroom ?_
    have hshort := h.2.short (shown text) List.mem_cons_self
    have := hG h.1
    omega

/-- A character string in the packet. -/
theorem loads_strField {field : DnsLocation} {label str : Bytes} {rdEnd w : ℕ} {rc : ℤ}
    {load : Bytes → Dec Unit} {R : DnsRr Ptr → List Ptr → Prop} (hd : env.needEmsg = false)
    (hl : env.loadMsg = true) (hrd : rdEnd ≤ env.pkt.length)
    (hat : strAt env.pkt rdEnd s.dec.offset = some str)
    (hload : ∀ u, u.msg = s.msg → Loads m sc G (load str) u st [str] fun _ t r' ps =>
      t.dec = u.dec ∧ R r' ps) :
    Loads m sc G (strField env field label rdEnd w rc load) s st [str] fun p t r' ps =>
      p = (w, rc) ∧ t.dec.offset = s.dec.offset+1+str.length ∧ R r' ps := by
  obtain ⟨hlen, hle⟩ := strAt_length hrd hat
  have hstr : slice env.pkt (s.dec.offset+1) str.length = str := by
    simp only [strAt, ← hlen] at hat
    rw [if_neg (by omega)] at hat
    exact Option.some.inj hat
  unfold strField
  refine loads_of_ok (getOffset_run s) (loads_of_ok
    (readBytes_run env (.inr (by omega)) s) ?_)
  simp only [← hlen, describe_eq hd, pure_bind]
  refine loads_of_ok (advance_run 1 s) ?_
  rw [when_neg (by omega)]
  refine loads_of_ok (pure_run _ _) (loads_of_ok (readBytes_run env (.inr (by omega)) _) ?_)
  rw [hstr, when_pos hl]
  refine (hload (moveTo s (s.dec.offset+1)) rfl).bind fun _ t st' r' ps ht hR => ?_
  refine loads_of_ok (advance_run str.length t) ?_
  refine loads_pure ht ⟨rfl, ?_, by rw [List.append_nil]; exact hR.2⟩
  rw [moveTo_offset, hR.1]
  rfl

include hl hd

theorem loads_rdataA {h : RrHdr} (hlen : h.rdlen.toNat = 4)
    (hin : s.dec.offset+4 ≤ env.pkt.length) (w : ℕ) (rc : ℤ) (hs : s.msg = stage m sc st r) :
    Loads m sc G (rdataA env sc h w s.dec.offset rc) s st [] fun _ t r' ps =>
      t.dec.offset = s.dec.offset+4 ∧ ps = [] ∧
        r' = { r with rdata := r.rdata.setA (toVector 4 (slice env.pkt s.dec.offset 4)) } := by
  unfold rdataA
  rw [describeIp_eq hd, when_neg (not_not.mpr hlen), when_pos hl]
  obtain ⟨t, hrun, hdec, hmsg⟩ := loadRdata_stage hl hs
    (Rdata.setA (toVector 4 (slice env.pkt s.dec.offset 4)))
  have hload := (bind_of_ok (readBytes_run env (.inr hin) s) fun b =>
    loadRdata env sc (Rdata.setA (toVector 4 b))).trans hrun
  refine loads_of_ok (pure_run _ s) (loads_of_ok hload (loads_of_ok (advance_run 4 t) ?_))
  exact loads_pure hmsg ⟨by rw [moveTo_offset, hdec], rfl, rfl⟩

theorem loads_rdataAaaa {h : RrHdr} (hlen : h.rdlen.toNat = 16)
    (hin : s.dec.offset+16 ≤ env.pkt.length) (w : ℕ) (rc : ℤ) (hs : s.msg = stage m sc st r) :
    Loads m sc G (rdataAaaa env sc h w s.dec.offset rc) s st [] fun _ t r' ps =>
      t.dec.offset = s.dec.offset+16 ∧ ps = [] ∧
        r' = { r with rdata := r.rdata.setAaaa (toVector 16 (slice env.pkt s.dec.offset 16)) } := by
  unfold rdataAaaa
  rw [describeIp_eq hd, when_neg (not_not.mpr hlen), when_pos hl]
  obtain ⟨t, hrun, hdec, hmsg⟩ := loadRdata_stage hl
    (s := moveTo s (s.dec.offset+16)) hs
    (Rdata.setAaaa (toVector 16 (slice env.pkt s.dec.offset 16)))
  have hload := (bind_of_ok (readBytes_run env (.inr hin) (moveTo s (s.dec.offset+16))) fun b =>
    loadRdata env sc (Rdata.setAaaa (toVector 16 b))).trans hrun
  refine loads_of_ok (pure_run _ s) (loads_of_ok (advance_run 16 s) (loads_of_ok hload ?_))
  exact loads_pure hmsg ⟨by rw [hdec, moveTo_offset], rfl, rfl⟩

section Names

variable {w e : ℕ} {text : Bytes} (hw : w ≤ dnsMsgSize) (hG : G → w+dnsNameMaxstr+1 ≤ dnsMsgSize)
include hw hG

omit hd in
theorem loads_rdataName (field : DnsLocation) (f : ℕ → Ptr → Rdata Ptr → Rdata Ptr)
    (hat : NameAt env.pkt s.dec.offset text e) (hs : s.msg = stage m sc st r) :
    Loads m sc G (rdataName env sc field f w) s st [shown text] fun _ t r' ps =>
      t.dec.offset = e ∧ ∃ p, ps = [p] ∧ r' = { r with rdata := f m.base p r.rdata } := by
  refine loads_nameField hw hat hG hs fun t ht hoff hshow _ => ?_
  refine (loads_loadName hl hshow (onRdata f) ht).bind fun _ u st' r' ps hu hpost => ?_
  obtain ⟨hdec, p, -, rfl, rfl⟩ := hpost
  exact loads_pure hu ⟨by rw [hdec, hoff], p, rfl, rfl⟩

omit hd in
/-- A name behind numbers. -/
theorem loads_valuesName (field : DnsLocation) (vals : Rdata Ptr → Rdata Ptr)
    (f : Ptr → Rdata Ptr → Rdata Ptr) (start : ℕ)
    (hat : NameAt env.pkt s.dec.offset text e) (hs : s.msg = stage m sc st r) :
    Loads m sc G (nameField env field w >>= fun n => loadRdata env sc vals >>= fun _ =>
      loadName env sc w (onRdata fun _ => f) >>= fun _ =>
      pure (⟨n, .scratch start, false⟩ : RdataOut)) s st [shown text] fun _ t r' ps =>
      t.dec.offset = e ∧ ∃ p, ps = [p] ∧ r' = { r with rdata := f p (vals r.rdata) } := by
  refine loads_nameField hw hat hG hs fun t ht hoff hshow _ => ?_
  obtain ⟨u, hrun, hdec, hu⟩ := loadRdata_stage hl ht vals
  refine loads_of_ok hrun ?_
  have hshow' : Shows u w (shown text) := shows_of_dec hdec hshow
  refine (loads_loadName hl hshow' (onRdata fun _ => f) hu).bind fun _ v st' r' ps hv hpost => ?_
  obtain ⟨hdec', p, -, rfl, rfl⟩ := hpost
  exact loads_pure hv ⟨by rw [hdec', hdec, hoff], p, rfl, rfl⟩

theorem loads_rdataMx {h : RrHdr} (hlen : 3 ≤ h.rdlen.toNat)
    (hin : s.dec.offset+2 ≤ env.pkt.length) (rc : ℤ)
    (hat : NameAt env.pkt (s.dec.offset+2) text e) (hs : s.msg = stage m sc st r) :
    Loads m sc G (rdataMx env sc h w s.dec.offset rc) s st [shown text] fun _ t r' ps =>
      t.dec.offset = e ∧ ∃ p, ps = [p] ∧ r' = { r with
        rdata := (r.rdata.setMxPref (decU16 (slice env.pkt s.dec.offset 2))).setMxName p } := by
  unfold rdataMx
  rw [when_neg (Nat.not_lt.mpr hlen)]
  simp only [describe_eq hd, pure_bind]
  refine loads_of_ok (readBytes_run env (.inr hin) s) (loads_of_ok (advance_run 2 s) ?_)
  exact loads_valuesName hl hw hG .mx _ Rdata.setMxName w (s := moveTo s (s.dec.offset+2)) hat hs

theorem loads_rdataSrv {h : RrHdr} (hlen : 7 ≤ h.rdlen.toNat)
    (hin : s.dec.offset+6 ≤ env.pkt.length) (rc : ℤ)
    (hat : NameAt env.pkt (s.dec.offset+6) text e) (hs : s.msg = stage m sc st r) :
    Loads m sc G (rdataSrv env sc h w s.dec.offset rc) s st [shown text] fun _ t r' ps =>
      t.dec.offset = e ∧ ∃ p, ps = [p] ∧ r' = { r with
        rdata := (r.rdata.setSrvVals (decU16 (slice (slice env.pkt s.dec.offset 6) 0 2))
          (decU16 (slice (slice env.pkt s.dec.offset 6) 2 2))
          (decU16 (slice (slice env.pkt s.dec.offset 6) 4 2))).setSrvName p } := by
  unfold rdataSrv
  rw [when_neg (Nat.not_lt.mpr hlen)]
  simp only [describe_eq hd, pure_bind]
  refine loads_of_ok (readBytes_run env (.inr hin) s) (loads_of_ok (advance_run 6 s) ?_)
  exact loads_valuesName hl hw hG .srv _ Rdata.setSrvName w (s := moveTo s (s.dec.offset+6)) hat
    hs

end Names

theorem loads_rdataSoa {w e1 e2 : ℕ} {t1 t2 : Bytes} (hw : w ≤ dnsMsgSize)
    (hG : G → w+2*(dnsNameMaxstr+1) ≤ dnsMsgSize) (h1 : NameAt env.pkt s.dec.offset t1 e1)
    (h2 : NameAt env.pkt e1 t2 e2) (hin : e2+20 ≤ env.pkt.length) (rc : ℤ)
    (hs : s.msg = stage m sc st r) :
    Loads m sc G (rdataSoa env sc w (e2+20) rc) s st [shown t1, shown t2] fun _ t r' ps =>
      t.dec.offset = e2+20 ∧ ∃ p q, ps = [p, q] ∧ r' = { r with
        rdata := Rdata.setSoaVals (decU32 (slice (slice env.pkt e2 20) 0 4))
          (decU32 (slice (slice env.pkt e2 20) 4 4)) (decU32 (slice (slice env.pkt e2 20) 8 4))
          (decU32 (slice (slice env.pkt e2 20) 12 4)) (decU32 (slice (slice env.pkt e2 20) 16 4))
          ((r.rdata.setSoaMname m.base p).setSoaRname q) } := by
  unfold rdataSoa
  simp only [describe_eq hd, describeVals_eq hd, pure_bind]
  refine loads_nameField hw h1 (fun h => by have := hG h; omega) hs fun t ht hoff hshow hfit => ?_
  refine (loads_loadName (x := shown t1) hl hshow (onRdata Rdata.setSoaMname) ht).bind
    (l := [shown t2]) fun _ t st' r' ps ht hpost => ?_
  obtain ⟨hdec, p, -, rfl, rfl⟩ := hpost
  have hat : NameAt env.pkt t.dec.offset t2 e2 := by rwa [hdec, hoff]
  refine loads_nameField (l := []) (by omega) hat ?_ ht fun t ht hoff hshow _ => ?_
  · intro h
    have hroom := hG h.1
    have hshort := h.2.short (shown t1) (List.mem_singleton_self _)
    omega
  rw [when_pos hl]
  have hstore := (loads_storeInto (G := G ∧ Clean st [shown t1]) (x := shown t2) (.inr rfl)
    (onRdata fun _ => Rdata.setSoaRname) ht).bind (f := fun _ => pure ())
    (Q := fun _ u r' qs => u.dec = t.dec ∧ ∃ q, qs = [q] ∧ r' =
      onRdata (fun _ => Rdata.setSoaRname) m.base q (onRdata Rdata.setSoaMname m.base p r))
    fun _ u st' r' qs hu hpost => by
      obtain ⟨hdec, q, rfl, rfl⟩ := hpost
      exact loads_pure hu ⟨hdec, q, rfl, rfl⟩
  refine (hstore.congr (bind_of_ok hshow.msgStr _)).bind (l := []) fun _ u st' r' qs hu hpost => ?_
  obtain ⟨hdec, q, rfl, rfl⟩ := hpost
  have hend : u.dec.offset = e2 := by rw [hdec, hoff]
  refine loads_of_ok (getOffset_run u) ?_
  rw [hend, when_neg (Nat.lt_irrefl _)]
  refine loads_of_ok (pure_run _ u) (loads_of_ok (readBytes_run env (.inr hin) u)
    (loads_of_ok (advance_run 20 u) ?_))
  obtain ⟨v, hrun, hdecv, hv⟩ := loadRdata_stage hl (s := moveTo u (u.dec.offset+20)) hu
    (Rdata.setSoaVals (decU32 (slice (slice env.pkt e2 20) 0 4))
      (decU32 (slice (slice env.pkt e2 20) 4 4)) (decU32 (slice (slice env.pkt e2 20) 8 4))
      (decU32 (slice (slice env.pkt e2 20) 12 4)) (decU32 (slice (slice env.pkt e2 20) 16 4)))
  refine loads_of_ok hrun (loads_pure hv ⟨?_, p, q, rfl, rfl⟩)
  rw [hdecv, moveTo_offset, hend]

theorem loads_rdataHinfo {h : RrHdr} {rdEnd w : ℕ} {cpu os : Bytes} (hlen : 2 ≤ h.rdlen.toNat)
    (hrd : rdEnd ≤ env.pkt.length) (hat : StrsAt env.pkt rdEnd s.dec.offset [cpu, os]) (rc : ℤ)
    (hs : s.msg = stage m sc st r) :
    Loads m sc G (rdataHinfo env sc h w rdEnd rc) s st [cpu, os] fun _ t r' ps =>
      t.dec.offset = rdEnd ∧ ∃ p q, ps = [p, q] ∧ r' = { r with
        rdata := (r.rdata.setHinfoCpuStr m.base p).setHinfoOsStr q } := by
  obtain ⟨hcpu, hos, hend⟩ := hat
  have hle := (strAt_length hrd hos).2
  have hload (str : Bytes) (f : ℕ → Ptr → Rdata Ptr → Rdata Ptr) (H : Prop) (st : NameStore)
      (r : DnsRr Ptr) (u : DecState) (hu : u.msg = stage m sc st r) :
      Loads m sc H (loadStr sc str (onRdata f)) u st [str] fun _ t r' ps =>
        t.dec = u.dec ∧ ∃ p, ps = [p] ∧ r' = { r with rdata := f m.base p r.rdata } :=
    (loads_loadStr (.inl rfl) (onRdata f) hu).mono id fun _ t r' ps hpost =>
      ⟨hpost.1, hpost.2.imp fun p hp => hp.2⟩
  unfold rdataHinfo
  rw [when_neg (Nat.not_lt.mpr hlen)]
  refine loads_of_ok (pure_run _ s) ?_
  refine (loads_strField hd hl hrd hcpu fun u hu =>
    hload cpu Rdata.setHinfoCpuStr G st r u (hu.trans hs)).bind (l := [os])
      fun a t st' r' ps ht hpost => ?_
  obtain ⟨rfl, hoff, p, rfl, rfl⟩ := hpost
  refine loads_of_ok (getOffset_run t) ?_
  rw [hoff, when_neg (by omega)]
  refine loads_of_ok (pure_run _ t) ?_
  have hos' : strAt env.pkt rdEnd t.dec.offset = some os := by rwa [hoff]
  refine (loads_strField hd hl hrd hos' fun u hu =>
    hload os (fun _ => Rdata.setHinfoOsStr) _ st' _ u
    (hu.trans ht)).bind (l := []) fun a u st'' r'' qs hu hpost => ?_
  obtain ⟨rfl, hoff', q, rfl, rfl⟩ := hpost
  exact loads_pure hu ⟨by rw [hoff', hoff]; exact hend, p, q, rfl, rfl⟩

omit hl hd in
theorem loads_loadTxt (hcount : (m.sect sc).count < dnsMaxRr) (str : Bytes)
    (hG : G → r.rdata.txtNumStr < dnsMaxTxt) (hs : s.msg = stage m sc st r) :
    Loads m sc G (loadTxt sc str) s st [str] fun _ t r' ps =>
      t.dec = s.dec ∧ r.rdata.txtNumStr < dnsMaxTxt ∧ ∃ p, ps = [p] ∧ r' = { r with
        rdata := { r.rdata with
          txtStr := r.rdata.txtStr.set r.rdata.txtNumStr p
          txtNumStr := r.rdata.txtNumStr+1 } } := by
  have hnum : ((s.msg.sect sc).slots.getD (s.msg.sect sc).count (zeroRr .null)).rdata.txtNumStr =
      r.rdata.txtNumStr := by
    change (slot s.msg sc).rdata.txtNumStr = _
    rw [hs, slot_stage st r hcount]
  unfold loadTxt
  refine loads_of_ok (get_run s) ?_
  rw [hnum]
  dsimp only
  by_cases hfull : dnsMaxTxt ≤ r.rdata.txtNumStr
  · rw [when_pos hfull]
    exact .exit rfl fun h => absurd (hG h.1) (Nat.not_lt.mpr hfull)
  · rw [when_neg hfull]
    refine loads_of_ok (pure_run _ s) ?_
    refine (loads_loadStr (x := str) (.inl rfl) _ hs).bind (l := []) fun _ t st' r' ps ht
      hpost => ?_
    obtain ⟨hdec, p, -, rfl, rfl⟩ := hpost
    refine .ok (modify_run _ t) (u := st') (l := []) ?_ .nil rfl
      ⟨hdec, Nat.not_le.mp hfull, p, rfl, rfl⟩
    dsimp only
    rw [ht, stage_modifySlot]
    rfl

theorem loads_txtLoop {rdEnd k w : ℕ} {strs : List Bytes} (hcount : (m.sect sc).count < dnsMaxRr)
    (hrd : rdEnd ≤ env.pkt.length) (hat : StrsAt env.pkt rdEnd s.dec.offset strs)
    (hk : rdEnd ≤ s.dec.offset+k) (hG : G → r.rdata.txtNumStr+strs.length ≤ dnsMaxTxt)
    (hlen : r.rdata.txtStr.length = dnsMaxTxt) (rc : ℤ) (hs : s.msg = stage m sc st r) :
    Loads m sc G (txtLoop env sc rdEnd k w rc) s st strs fun _ t r' ps =>
      t.dec.offset = rdEnd ∧
        r.rdata.txtNumStr+strs.length ≤ max r.rdata.txtNumStr dnsMaxTxt ∧
        ∃ rd, r' = { r with rdata := rd } ∧ txtPtrs rd = txtPtrs r.rdata ++ ps := by
  induction strs generalizing s st r k G with
  | nil =>
    have hoff : s.dec.offset = rdEnd := hat
    have hpost : r.rdata.txtNumStr+0 ≤ max r.rdata.txtNumStr dnsMaxTxt ∧
        ∃ rd, r = { r with rdata := rd } ∧ txtPtrs rd = txtPtrs r.rdata ++ [] :=
      ⟨Nat.le_max_left _ _, r.rdata, rfl, (List.append_nil _).symm⟩
    cases k with
    | zero => exact loads_pure hs ⟨hoff, hpost⟩
    | succ k =>
      unfold txtLoop
      refine loads_of_ok (getOffset_run s) ?_
      rw [if_neg (Nat.not_lt.mpr hoff.ge)]
      exact loads_pure hs ⟨hoff, hpost⟩
  | cons str rest ih =>
    have hle := (strAt_length hrd hat.1).2
    rw [List.length_cons] at hG
    cases k with
    | zero => omega
    | succ k =>
      unfold txtLoop
      refine loads_of_ok (getOffset_run s) ?_
      rw [if_pos (by omega)]
      refine (loads_strField hd hl hrd hat.1 fun u hu => loads_loadTxt hcount str
        (fun h => by have := hG h; omega) (hu.trans hs)).bind (l := rest)
          fun a t st' r' ps ht hpost => ?_
      obtain ⟨rfl, hoff, hlt, p, rfl, rfl⟩ := hpost
      refine (ih (by rw [hoff]; exact hat.2) (by omega) (fun h => ?_) (by rwa [List.length_set])
        ht).mono id fun _ u r' qs hpost => ?_
      · have := hG h.1
        dsimp only
        omega
      · obtain ⟨hend, hmax, rd, rfl, hptrs⟩ := hpost
        refine ⟨hend, ?_, rd, rfl, ?_⟩
        · dsimp only at hmax
          rw [List.length_cons]
          omega
        · rw [hptrs, txtPtrs_push hlen hlt, List.append_assoc]

theorem loads_rdataTxt {rdEnd w : ℕ} {strs : List Bytes} (hcount : (m.sect sc).count < dnsMaxRr)
    (hrd : rdEnd ≤ env.pkt.length) (hat : StrsAt env.pkt rdEnd s.dec.offset strs)
    (hle : s.dec.offset ≤ rdEnd) (hG : G → r.rdata.txtNumStr+strs.length ≤ dnsMaxTxt)
    (hlen : r.rdata.txtStr.length = dnsMaxTxt) (rc : ℤ) (hs : s.msg = stage m sc st r) :
    Loads m sc G (rdataTxt env sc w s.dec.offset rdEnd rc) s st strs fun _ t r' ps =>
      t.dec.offset = rdEnd ∧
        r.rdata.txtNumStr+strs.length ≤ max r.rdata.txtNumStr dnsMaxTxt ∧
        ∃ rd, r' = { r with rdata := rd } ∧ txtPtrs rd = txtPtrs r.rdata ++ ps := by
  have hloop := (loads_txtLoop (w := w) hl hd hcount hrd hat (k := rdEnd-s.dec.offset) (by omega) hG
    hlen rc hs).bind (f := fun p => pure (⟨p.2, .scratch w, false⟩ : RdataOut)) (l := [])
    (Q := fun _ t r' ps => t.dec.offset = rdEnd ∧
      r.rdata.txtNumStr+strs.length ≤ max r.rdata.txtNumStr dnsMaxTxt ∧
      ∃ rd, r' = { r with rdata := rd } ∧ txtPtrs rd = txtPtrs r.rdata ++ ps)
    fun p t st' r' ps ht hpost => loads_pure ht (by rwa [List.append_nil])
  rwa [List.append_nil] at hloop

omit hd in
theorem loads_rdataOpt {h : RrHdr} {w rdEnd : ℕ} {name : Bytes} (hsc : sc = .ar)
    (hw : w ≤ dnsMsgSize) (hshow : Shows s 0 name) (hs : s.msg = stage m sc st r) :
    Loads m sc G (rdataOpt env sc h w rdEnd) s st [name] fun _ t r' ps =>
      t.dec.offset = rdEnd ∧ ∃ p, p ≠ .null ∧ ps = [p] ∧ r' = { r with
        rdata := (r.rdata.setOpt h.rrClass (optExtRcode h.ttl) (optVersion h.ttl)
          (optDoBit h.ttl)).setOptZBits (optZBits h.ttl)
        rrClass := 0
        name := p } := by
  unfold rdataOpt
  rw [when_neg (not_not.mpr hsc), when_pos hl]
  refine loads_of_ok (pure_run _ s) ?_
  have hload : Loads m sc G (loadOpt sc h) s st [name] fun _ t r' ps =>
      ∃ p, p ≠ .null ∧ ps = [p] ∧ r' = { r with
        rdata := (r.rdata.setOpt h.rrClass (optExtRcode h.ttl) (optVersion h.ttl)
          (optDoBit h.ttl)).setOptZBits (optZBits h.ttl)
        rrClass := 0
        name := p } := by
    unfold loadOpt
    refine loads_of_ok (modify_run _ s) ?_
    refine loads_of_ok (t := { s with msg := _ }) (Shows.msgStr (s := { s with msg := _ }) hshow) ?_
    refine (loads_loadStr (x := name) (.inr rfl) (fun _ p r => { r with name := p })
      (r := { r with
        rdata := (r.rdata.setOpt h.rrClass (optExtRcode h.ttl) (optVersion h.ttl)
          (optDoBit h.ttl)).setOptZBits (optZBits h.ttl)
        rrClass := 0 }) ?_).mono id fun _ t r' ps hpost => ?_
    · dsimp only
      rw [hs, stage_modifySlot]
    · obtain ⟨-, p, hp, rfl, rfl⟩ := hpost
      exact ⟨p, hp, rfl, rfl⟩
  refine hload.bind (l := []) fun _ t st' r' ps ht hpost => ?_
  obtain ⟨p, hp, rfl, rfl⟩ := hpost
  have hput := (put_msg t w (cut w (optText h))).trans ht
  exact loads_of_ok (get_run t) (loads_of_ok (snprintf_run hw (optText h) t)
    (loads_of_ok (modify_run _ _) (loads_pure hput ⟨rfl, p, hp, rfl, rfl⟩)))

def oldPtrs (rrType : UInt16) (rd : Rdata Ptr) : List Ptr :=
  if rrKind rrType = .txt then txtPtrs rd else []

/-- The RDATA of a slot with the fields of a view and pointers to its strings. -/
def RdLoaded (rrType : UInt16) (v : RdView) (r r' : DnsRr Ptr) (ps : List Ptr) : Prop :=
  ∃ rd, r' = { r with rdata := rd } ∧ RdFields (rrKind rrType) rd v ∧
    rdPtrs rrType rd = oldPtrs rrType r.rdata ++ ps ∧
    (rrKind rrType = .txt → r.rdata.txtNumStr+v.strs.length ≤ max r.rdata.txtNumStr dnsMaxTxt)

omit hl hd in
theorem rdLoaded_of {rrType : UInt16} {v : RdView} {rd : Rdata Ptr} {ps : List Ptr}
    (ht : rrKind rrType ≠ .txt) (hfields : RdFields (rrKind rrType) rd v)
    (hptrs : rdPtrs rrType rd = ps) : RdLoaded rrType v r { r with rdata := rd } ps := by
  refine ⟨rd, rfl, hfields, ?_, fun h => absurd h ht⟩
  rw [oldPtrs, if_neg ht, List.nil_append]
  exact hptrs

omit hd in
/-- The types whose RDATA is a name. -/
theorem loads_nameRdata {rrType : UInt16} {w fin : ℕ} {text : Bytes} (hw : w ≤ dnsMsgSize)
    (hG : G → w+dnsNameMaxstr+1 ≤ dnsMsgSize) (field : DnsLocation)
    (f : ℕ → Ptr → Rdata Ptr → Rdata Ptr) (ht : rrKind rrType ≠ .txt)
    (hfields : ∀ base p rd, RdFields (rrKind rrType) (f base p rd) (.name (shown text)))
    (hptrs : ∀ base p rd, rdPtrs rrType (f base p rd) = [p])
    (hat : NameAt env.pkt s.dec.offset text fin) (hs : s.msg = stage m sc st r) :
    Loads m sc G (rdataName env sc field f w) s st [shown text] fun _ t r' ps =>
      t.dec.offset = fin ∧ RdLoaded rrType (.name (shown text)) r r' ps := by
  refine (loads_rdataName hl hw hG field f hat hs).mono id fun _ t r' ps hpost => ?_
  obtain ⟨hoff, p, rfl, rfl⟩ := hpost
  exact ⟨hoff, rdLoaded_of ht (hfields _ _ _) (hptrs _ _ _)⟩

omit hl hd in
/-- The types whose RDATA is not read. -/
theorem loads_skipRdata {h : RrHdr} {fin : ℕ} (rc : ℤ) (ht : rrKind h.rrType ≠ .txt)
    (hfields : ∀ rd, RdFields (rrKind h.rrType) rd .none) (hptrs : ∀ rd, rdPtrs h.rrType rd = [])
    (hfin : fin = s.dec.offset+h.rdlen.toNat) (hs : s.msg = stage m sc st r) :
    Loads m sc G (rdataSkip h rc) s st [] fun _ t r' ps =>
      t.dec.offset = fin ∧ RdLoaded h.rrType .none r r' ps :=
  loads_of_ok (advance_run _ s)
    (loads_pure hs ⟨hfin.symm, rdLoaded_of ht (hfields _) (hptrs _)⟩)

theorem loads_rrRdata {h : RrHdr} {w fin : ℕ} {v : RdView} (hk : rrKind h.rrType ≠ .opt)
    (hat : RdataAt env.pkt h s.dec.offset fin v) (hfin : fin = s.dec.offset+h.rdlen.toNat)
    (hin : fin ≤ env.pkt.length) (hw : w ≤ dnsMsgSize)
    (hG : G → w+2*(dnsNameMaxstr+1) ≤ dnsMsgSize)
    (hnum : rrKind h.rrType = .txt → G → r.rdata.txtNumStr+v.strs.length ≤ dnsMaxTxt)
    (hcount : (m.sect sc).count < dnsMaxRr) (hlen : r.rdata.txtStr.length = dnsMaxTxt) (rc : ℤ)
    (hs : s.msg = stage m sc st r) :
    Loads m sc G (rrRdata env sc h w s.dec.offset fin rc) s st v.strs fun _ t r' ps =>
      t.dec.offset = fin ∧ RdLoaded h.rrType v r r' ps := by
  have hroom (hg : G) : w+dnsNameMaxstr+1 ≤ dnsMsgSize := by
    have := hG hg
    omega
  unfold rrRdata RdataAt at *
  cases hkind : rrKind h.rrType with
  | opt => exact absurd hkind hk
  | a =>
    simp only [hkind] at hat
    obtain ⟨hend, rfl⟩ := hat
    refine (loads_rdataA hl hd (by omega) (by omega) w rc hs).mono id fun _ t r' ps hpost => ?_
    obtain ⟨hoff, rfl, rfl⟩ := hpost
    exact ⟨hoff.trans hend.symm, rdLoaded_of (by rw [hkind]; decide)
      (by simp only [RdFields, hkind, Rdata.setA, Rdata.head])
      (by simp [rdPtrs, rdNames, rdStrs, hkind])⟩
  | aaaa =>
    simp only [hkind] at hat
    obtain ⟨hend, rfl⟩ := hat
    refine (loads_rdataAaaa hl hd (by omega) (by omega) w rc hs).mono id fun _ t r' ps hpost => ?_
    obtain ⟨hoff, rfl, rfl⟩ := hpost
    exact ⟨hoff.trans hend.symm, rdLoaded_of (by rw [hkind]; decide)
      (by simp only [RdFields, hkind]; rfl) (by simp [rdPtrs, rdNames, rdStrs, hkind])⟩
  | ns | cname | ptr =>
    simp only [hkind] at hat
    obtain ⟨text, hat, rfl⟩ := hat
    exact loads_nameRdata hl hw hroom _ _ (by rw [hkind]; decide)
      (fun base p rd => by simp only [RdFields, hkind]; exact ⟨_, rfl⟩)
      (fun base p rd => by simp [rdPtrs, rdNames, rdStrs, hkind]; rfl) hat hs
  | soa =>
    simp only [hkind] at hat
    obtain ⟨t1, e1, t2, e2, h1, h2, rfl, rfl⟩ := hat
    refine (loads_rdataSoa hl hd hw hG h1 h2 hin rc hs).mono id fun _ t r' ps hpost => ?_
    obtain ⟨hoff, p, q, rfl, rfl⟩ := hpost
    exact ⟨hoff, rdLoaded_of (by rw [hkind]; decide)
      (by simp only [RdFields, hkind]; exact ⟨_, _, rfl⟩)
      (by simp [rdPtrs, rdNames, rdStrs, hkind]; exact ⟨rfl, rfl⟩)⟩
  | hinfo =>
    simp only [hkind] at hat
    obtain ⟨cpu, os, hat, rfl⟩ := hat
    have hle1 := (strAt_length hin hat.1).2
    have hle2 := (strAt_length hin hat.2.1).2
    refine (loads_rdataHinfo hl hd (by omega) hin hat rc hs).mono id fun _ t r' ps hpost => ?_
    obtain ⟨hoff, p, q, rfl, rfl⟩ := hpost
    exact ⟨hoff, rdLoaded_of (by rw [hkind]; decide)
      (by simp only [RdFields, hkind]; exact ⟨_, _, rfl⟩)
      (by simp [rdPtrs, rdNames, rdStrs, hkind]; exact ⟨rfl, rfl⟩)⟩
  | mx =>
    simp only [hkind] at hat
    obtain ⟨text, hat, rfl⟩ := hat
    have hlt := hat.bounds
    refine (loads_rdataMx hl hd hw hroom (by omega) (by omega) rc hat hs).mono id
      fun _ t r' ps hpost => ?_
    obtain ⟨hoff, p, rfl, rfl⟩ := hpost
    exact ⟨hoff, rdLoaded_of (by rw [hkind]; decide)
      (by simp only [RdFields, hkind]; exact ⟨_, rfl⟩)
      (by simp [rdPtrs, rdNames, rdStrs, hkind]; rfl)⟩
  | txt =>
    simp only [hkind] at hat
    obtain ⟨strs, hat, rfl⟩ := hat
    refine (loads_rdataTxt hl hd hcount hin hat (by omega) (hnum hkind) hlen rc hs).mono id
      fun _ t r' ps hpost => ?_
    obtain ⟨hoff, hmax, rd, rfl, hptrs⟩ := hpost
    exact ⟨hoff, rd, rfl, by simp only [RdFields, hkind]; exact ⟨_, rfl⟩,
      by simpa [rdPtrs, rdNames, rdStrs, oldPtrs, hkind] using hptrs, fun _ => hmax⟩
  | srv =>
    simp only [hkind] at hat
    obtain ⟨text, hat, rfl⟩ := hat
    have hlt := hat.bounds
    refine (loads_rdataSrv hl hd hw hroom (by omega) (by omega) rc hat hs).mono id
      fun _ t r' ps hpost => ?_
    obtain ⟨hoff, p, rfl, rfl⟩ := hpost
    exact ⟨hoff, rdLoaded_of (by rw [hkind]; decide)
      (by simp only [RdFields, hkind]; exact ⟨_, rfl⟩)
      (by simp [rdPtrs, rdNames, rdStrs, hkind]; rfl)⟩
  | any | other =>
    simp only [hkind] at hat
    subst hat
    exact loads_skipRdata rc (by rw [hkind]; decide)
      (fun rd => by simp only [RdFields, hkind])
      (fun rd => by simp [rdPtrs, rdNames, rdStrs, hkind]) hfin hs

/-- The strings that are stored for a record: the owner of an `OPT` record is stored twice. -/
def loadedStrs (v : RrView) : List Bytes :=
  (if rrKind v.rrType = .opt then [v.name] else []) ++ v.name :: v.rdata.strs

/-- A slot `r` that was filled with a record, and pointers to the strings in their order. -/
structure RrLoaded (v : RrView) (r r' : DnsRr Ptr) (ps : List Ptr) : Prop where
  rrType : r'.rrType = v.rrType
  rrClass : r'.rrClass = v.rrClass
  ttl : r'.ttl = v.ttl
  fields : RdFields (rrKind v.rrType) r'.rdata v.rdata
  owner : r'.name ≠ .null
  ptrs : ∃ pre qs, (∀ p ∈ pre, p ≠ .null) ∧ ps = pre ++ r'.name :: qs ∧
    pre.length = (if rrKind v.rrType = .opt then [v.name] else []).length ∧
    rdPtrs v.rrType r'.rdata = oldPtrs v.rrType r.rdata ++ qs
  txt : rrKind v.rrType = .txt →
    r.rdata.txtNumStr+v.rdata.strs.length ≤ max r.rdata.txtNumStr dnsMaxTxt

omit hd in
theorem loads_rrName {text : Bytes} {e : ℕ} (hat : NameAt env.pkt s.dec.offset text e)
    (hs : s.msg = stage m sc st r) :
    Loads m sc G (rrName env sc) s st [shown text] fun n t r' ps =>
      n = (shown text).length ∧ t.dec.offset = e ∧ Shows t 0 (shown text) ∧
        (shown text).length+1 ≤ dnsMsgSize ∧ ∃ p, p ≠ .null ∧ ps = [p] ∧ r' =
          { r with name := p } := by
  unfold rrName
  refine loads_nameField (Nat.zero_le _) hat (fun _ => by decide) hs fun t ht hoff hshow hfit => ?_
  refine (loads_loadName hl hshow _ ht).bind (l := []) fun _ u st' r' ps hu hpost => ?_
  obtain ⟨hdec, p, hp, rfl, rfl⟩ := hpost
  refine loads_pure hu ⟨rfl, by rw [hdec, hoff], shows_of_dec hdec hshow, by omega, p, hp, rfl, rfl⟩

omit hd in
theorem rrHdr_stage {h : RrHdr} (hin : s.dec.offset+10 ≤ env.pkt.length)
    (hh : hdrAt env.pkt s.dec.offset = h) (hs : s.msg = stage m sc st r) :
    ∃ t, rrHdr env sc s = .ok h t ∧ t.dec.offset = s.dec.offset+10 ∧
      (∀ b, Shows s 0 b → Shows t 0 b) ∧ t.msg = stage m sc st (setHdr h r) := by
  have hrun := rrHdr_run hin sc
  rw [hh, if_pos hl, hs, stage_modifySlot] at hrun
  exact ⟨_, hrun, rfl, fun b h => h, rfl⟩

omit hl hd in
/-- What is checked behind the RDATA. -/
theorem loads_rdataChecked {x : Dec RdataOut} {fin : ℕ} {Q : DnsRr Ptr → List Ptr → Prop}
    (h : RrHdr) (hx : Loads m sc G x s st xs fun _ t r ps => t.dec.offset = fin ∧ Q r ps) :
    Loads m sc G (x >>= fun out => getOffset >>= fun off =>
      when (off ≠ fin) (retErr .rr .rdata DnsEc.erdatalen.code) >>= fun _ => pure (h, out))
      s st xs fun _ t r ps => t.dec.offset = fin ∧ Q r ps := by
  rw [← List.append_nil xs]
  refine hx.bind fun out t st' r' ps ht hpost => ?_
  refine loads_of_ok (getOffset_run t) ?_
  rw [hpost.1, when_neg (not_not.mpr rfl)]
  refine loads_of_ok (pure_run _ _) (loads_pure ht ⟨hpost.1, ?_⟩)
  rw [List.append_nil]
  exact hpost.2

omit hl hd in
theorem loadedStrs_wire {pkt : Bytes} {h : RrHdr} {start fin : ℕ} {rd : RdView} (text : Bytes)
    (hrd : RdataAt pkt h start fin rd) : loadedStrs (wireView text h rd) =
      [shown text] ++ if rrKind h.rrType = .opt then [shown text] else rd.strs := by
  change (if rrKind h.rrType = .opt then [shown text] else []) ++ shown text :: rd.strs = _
  split
  · next hk =>
    unfold RdataAt at hrd
    simp only [hk] at hrd
    rw [hrd]
    rfl
  · rfl

omit hl hd in
/-- A slot with the two pointers to the owner of an `OPT` record. -/
theorem rrLoaded_opt {h : RrHdr} (text : Bytes) {p q : Ptr} (hk : rrKind h.rrType = .opt)
    (hp : p ≠ .null) (hq : q ≠ .null) : RrLoaded (wireView text h (optView h)) r
      { setHdr h { r with name := p } with
        rdata := (r.rdata.setOpt h.rrClass (optExtRcode h.ttl) (optVersion h.ttl)
          (optDoBit h.ttl)).setOptZBits (optZBits h.ttl)
        rrClass := 0
        name := q } [p, q] := by
  refine ⟨rfl, ?_, rfl, ?_, hq, ⟨[p], [], ?_⟩, fun ht => ?_⟩
  · change 0 = if rrKind h.rrType = .opt then 0 else h.rrClass
    rw [if_pos hk]
  · change RdFields (rrKind h.rrType) _ (optView h)
    rw [hk]
    rfl
  · refine ⟨fun x hx => List.mem_singleton.mp hx ▸ hp, rfl, ?_, ?_⟩
    · change 1 = (if rrKind h.rrType = .opt then [shown text] else []).length
      rw [if_pos hk]
      rfl
    · change rdPtrs h.rrType _ = oldPtrs h.rrType r.rdata ++ []
      simp [rdPtrs, rdNames, rdStrs, oldPtrs, hk]
  · change rrKind h.rrType = .txt at ht
    rw [hk] at ht
    cases ht

omit hl hd in
/-- A slot with the pointer to the owner of another record, and its RDATA. -/
theorem rrLoaded_rdata {h : RrHdr} (text : Bytes) {rd : RdView} {p : Ptr} {r' : DnsRr Ptr}
    {qs : List Ptr} (hk : rrKind h.rrType ≠ .opt) (hp : p ≠ .null)
    (hrd : RdLoaded h.rrType rd (setHdr h { r with name := p }) r' qs) :
    RrLoaded (wireView text h rd) r r' (p :: qs) := by
  obtain ⟨rd', rfl, hfields, hptrs, htxt⟩ := hrd
  refine ⟨rfl, ?_, rfl, hfields, hp, ⟨[], qs, ?_⟩, htxt⟩
  · change h.rrClass = if rrKind h.rrType = .opt then 0 else h.rrClass
    rw [if_neg hk]
  · refine ⟨fun x hx => absurd hx List.not_mem_nil, rfl, ?_, hptrs⟩
    change 0 = (if rrKind h.rrType = .opt then [shown text] else []).length
    rw [if_neg hk]
    rfl

theorem loads_rrFill {v : RrView} {fin : ℕ} (hat : RecordAt env.pkt s.dec.offset v fin)
    (hend : rrKind v.rrType ≠ .opt → fin < 2^16) (hopt : rrKind v.rrType = .opt → sc = .ar)
    (hcount : (m.sect sc).count < dnsMaxRr) (hlen : r.rdata.txtStr.length = dnsMaxTxt)
    (hs : s.msg = stage m sc st r) :
    Loads m sc (rrKind v.rrType = .txt → r.rdata.txtNumStr+v.rdata.strs.length ≤ dnsMaxTxt)
      (rrFill env sc) s st (loadedStrs v) fun _ t r' ps =>
        t.dec.offset = fin % 2^16 ∧ RrLoaded v r r' ps := by
  obtain ⟨text, e, rd, hname, hhdr, rfl, hfin, hrd, rfl⟩ := hat
  obtain ⟨h, hh⟩ : ∃ h, hdrAt env.pkt e = h := ⟨_, rfl⟩
  have hfinEq : rdataEnd env.pkt e = e+10+h.rdlen.toNat := by rw [rdataEnd, hh]
  rw [hh] at hrd hend hopt ⊢
  rw [hfinEq] at hfin hrd hend ⊢
  change rrKind h.rrType ≠ .opt → _ at hend
  change rrKind h.rrType = .opt → _ at hopt
  have hcheck : ¬ env.pkt.length < (e+10+h.rdlen.toNat) % 2^16 :=
    Nat.not_lt.mpr ((Nat.mod_le _ _).trans hfin)
  rw [loadedStrs_wire text hrd]
  unfold rrFill
  refine (loads_rrName hl hname hs).bind fun n t st' r' ps ht hpost => ?_
  obtain ⟨rfl, hoff, hshow, hroom, p, hp, rfl, rfl⟩ := hpost
  obtain ⟨u, hrun, hoff', hshow', hu⟩ := rrHdr_stage (h := h) hl
    (by rw [hoff]; exact hhdr) (by rw [hoff]; exact hh) ht
  rw [hoff] at hoff'
  refine loads_of_ok hrun (loads_of_ok (getOffset_run _) ?_)
  rw [hoff']
  dsimp only
  rw [when_neg hcheck]
  refine loads_of_ok (pure_run _ _) ?_
  by_cases hk : rrKind h.rrType = .opt
  · -- The owner is stored a second time, and the RDATA is jumped over.
    rw [if_pos hk]
    have hview : rd = optView h := by
      unfold RdataAt at hrd
      simpa only [hk] using hrd
    rw [hview]
    refine loads_rdataChecked h ?_
    unfold rrRdata
    simp only [hk]
    refine (loads_rdataOpt hl (hopt hk) hroom (hshow' _ hshow) hu).mono id
      fun out v r'' qs hpost => ?_
    obtain ⟨hend', q, hq, rfl, rfl⟩ := hpost
    exact ⟨hend', rrLoaded_opt text hk hp hq⟩
  · rw [if_neg hk]
    have hlt := hend hk
    rw [Nat.mod_eq_of_lt hlt]
    rw [← hoff'] at hrd hfin ⊢
    refine loads_rdataChecked h ((loads_rrRdata hl hd hk hrd rfl hfin hroom ?_ ?_ hcount ?_ _
      hu).mono id fun out v r'' qs hpost => ⟨hpost.1, rrLoaded_rdata text hk hp hpost.2⟩)
    · -- The owner has at most 253 characters, so two more names fit the scratch buffer.
      intro hg
      have hshort := hg.2.short _ (List.mem_singleton_self _)
      change _ ≤ 253 at hshort
      change _+1+2*(253+1) ≤ 1124
      omega
    · exact fun ht hg => hg.1 ht
    · exact hlen

end Loads

theorem putsAll_length {ss : List Bytes} {ps : List Ptr} {st st' : NameStore}
    (h : PutsAll st ss ps st') : ss.length = ps.length := by
  induction ss generalizing ps st with
  | nil =>
    cases ps with
    | nil => rfl
    | cons p ps => exact h.elim
  | cons s ss ih =>
    cases ps with
    | nil => exact h.elim
    | cons p ps =>
      obtain ⟨st1, -, hr⟩ := h
      rw [List.length_cons, List.length_cons, ih hr]

/-- A string that a pointer shows has no zero byte in it. -/
theorem Points.plain {st : NameStore} {p : Ptr} {x : Bytes} (h : Points st p x) :
    p ≠ .null ∧ (0 : UInt8) ∉ x := by
  cases p with
  | null => cases h
  | wild => cases h
  | ref off =>
    obtain rfl := Option.some.inj h
    exact ⟨Ptr.noConfusion, zero_notMem_cstr _⟩

theorem forall₂_plain {st : NameStore} {ps : List Ptr} {xs : List Bytes}
    (h : List.Forall₂ (Points st) ps xs) :
    (∀ p ∈ ps, p ≠ .null) ∧ ∀ x ∈ xs, (0 : UInt8) ∉ x := by
  induction h with
  | nil => exact ⟨fun p hp => absurd hp List.not_mem_nil, fun x hx => absurd hx List.not_mem_nil⟩
  | cons hp _ ih =>
    obtain ⟨hne, h0⟩ := Points.plain hp
    exact ⟨List.forall_mem_cons.mpr ⟨hne, ih.1⟩, List.forall_mem_cons.mpr ⟨h0, ih.2⟩⟩

section Shown

variable {v : RrView} {r r' : DnsRr Ptr} {ss : List Bytes} {ps : List Ptr} {st st' st'' : NameStore}
  (h : RrLoaded v r r' ps) (hc : Copies (loadedStrs v) ss) (hp : PutsAll st ss ps st')

include h hc hp

theorem RrLoaded.shows (hclean : Clean st (loadedStrs v)) (hold : oldPtrs v.rrType r.rdata = [])
    (hlater : Later st' st'') : RrShows st'' r' v := by
  obtain ⟨rfl, hne, -⟩ := hclean.puts hc hp
  obtain ⟨pre, qs, -, rfl, hlen, hptrs⟩ := h.ptrs
  have hall := List.forall₂_drop_append _ _ _ (putsAll_shows hp hlater hne hclean.plain)
  rw [← hlen, List.drop_left] at hall
  rw [hold, List.nil_append] at hptrs
  cases hall with
  | cons hname hstrs =>
    refine ⟨hname, h.rrType, h.rrClass, h.ttl, ?_, ?_⟩
    · rw [h.rrType]
      exact h.fields
    · rw [h.rrType, hptrs]
      exact hstrs

theorem RrLoaded.clean (hshow : RrShows st'' r' v) :
    Clean st (loadedStrs v) ∧ oldPtrs v.rrType r.rdata = [] := by
  obtain ⟨pre, qs, hpre, rfl, hlen, hptrs⟩ := h.ptrs
  have hstrs := hshow.strs
  rw [h.rrType, hptrs] at hstrs
  obtain ⟨hne, h0⟩ := forall₂_plain hstrs
  obtain ⟨howner, hplain⟩ := Points.plain hshow.name
  constructor
  · refine clean_of_puts hc hp (fun p hmem => ?_) fun x hmem => ?_
    · rcases List.mem_append.mp hmem with hmem | hmem
      · exact hpre p hmem
      rcases List.mem_cons.mp hmem with rfl | hmem
      · exact howner
      · exact hne p (List.mem_append_right _ hmem)
    · rcases List.mem_append.mp hmem with hmem | hmem
      · split at hmem
        · exact List.mem_singleton.mp hmem ▸ hplain
        · exact absurd hmem List.not_mem_nil
      rcases List.mem_cons.mp hmem with rfl | hmem
      · exact hplain
      · exact h0 x hmem
  · have hcopied := hc.length_eq.trans (putsAll_length hp)
    have hshown := hstrs.length_eq
    rw [loadedStrs, List.length_append, List.length_append, List.length_cons, List.length_cons,
      ← hlen] at hcopied
    rw [List.length_append] at hshown
    exact List.length_eq_zero_iff.mp (by omega)

end Shown

structure Fits (sc : Sect) (r : DnsRr Ptr) (v : RrView) (fin : ℕ) : Prop where
  inRange : rrKind v.rrType ≠ .opt → fin < 2^16
  place : rrKind v.rrType = .opt → sc = .ar
  txt : rrKind v.rrType = .txt → r.rdata.txtNumStr = 0 ∧ v.rdata.strs.length ≤ dnsMaxTxt

theorem oldPtrs_nil {rrType : UInt16} {rd : Rdata Ptr} :
    oldPtrs rrType rd = [] ↔ (rrKind rrType = .txt → rd.txtNumStr = 0) := by
  rw [oldPtrs]
  split
  · next hk => simp [txtPtrs, hk]
  · next hk => simp [hk]

section Entry

variable {pkt : Bytes} {sc : Sect} {s : DecState} {v : RrView} {fin : ℕ}

/-- The part of a record decode around what fills the slot. -/
theorem rrBody_filled (hcount : (s.msg.sect sc).count < dnsMaxRr) {p : RrHdr × RdataOut}
    {t : DecState} (h : rrFill (loadEnv pkt) sc s = .ok p t) :
    rrBody (loadEnv pkt) sc s = .ok p.2.rc { t with msg := t.msg.countUp sc } := by
  rw [rrBody_eq, bind_of_ok (rrSlot_run fun _ => hcount), bind_of_ok h]
  rfl

theorem rrBody_left (hcount : (s.msg.sect sc).count < dnsMaxRr) {c : ℤ} {t : DecState}
    (h : rrFill (loadEnv pkt) sc s = .exit c t) : rrBody (loadEnv pkt) sc s = .exit c t := by
  rw [rrBody_eq, bind_of_ok (rrSlot_run fun _ => hcount), bind_of_exit h]

variable (hat : RecordAt pkt s.dec.offset v fin) (hcount : (s.msg.sect sc).count < dnsMaxRr)
  (hlen : (slot s.msg sc).rdata.txtStr.length = dnsMaxTxt)

include hat hcount hlen

/-- A record that fits is loaded. -/
theorem record_loaded (hfits : Fits sc (slot s.msg sc) v fin)
    (hclean : Clean s.msg.store (loadedStrs v)) :
    ∃ rc t st r, rrBody (loadEnv pkt) sc s = .ok rc t ∧
      t.msg = (stage s.msg sc st r).countUp sc ∧ t.dec.offset = fin % 2^16 ∧
      st.len = s.msg.store.len+storeSize (loadedStrs v) ∧ Later s.msg.store st ∧
      ∀ st', Later st st' → RrShows st' r v := by
  have hfill := loads_rrFill (loadEnv_loads pkt) (loadEnv_quiet pkt) hat hfits.inRange hfits.place
    hcount hlen
    (stage_self s.msg sc).symm
  cases hfill with
  | exit run bad =>
    refine absurd ⟨fun ht => ?_, hclean⟩ bad
    rw [(hfits.txt ht).1, Nat.zero_add]
    exact (hfits.txt ht).2
  | @ok a t ss ps st r run msg copies puts post =>
    refine ⟨_, _, st, r, rrBody_filled hcount run, by dsimp only; rw [msg], post.1,
      (hclean.puts copies puts).2.2, puts.later, fun st' hlater => ?_⟩
    exact post.2.shows copies puts hclean (oldPtrs_nil.mpr fun ht => (hfits.txt ht).1) hlater

/-- A record that was loaded: where it stands and ends, and what its strings became. -/
theorem record_ran {rc : ℤ} {t : DecState} {r : DnsRr Ptr}
    (hrun : rrBody (loadEnv pkt) sc s = .ok rc t)
    (hmem : records t.msg sc = records s.msg sc ++ [r]) :
    (rrKind v.rrType ≠ .opt → fin < 2^16) ∧ (rrKind v.rrType = .opt → sc = .ar) ∧
      ∃ ss ps st', RrLoaded v (slot s.msg sc) r ps ∧ Copies (loadedStrs v) ss ∧
        PutsAll s.msg.store ss ps st' := by
  obtain ⟨text, e, hentry, hoff, hmoved⟩ := rrBody_offset hrun
  obtain ⟨text', e', rd, hname, -, rfl, -, -, rfl⟩ := id hat
  obtain ⟨rfl, rfl⟩ := hname.unique hentry.name
  have hrange (hk : rrKind (hdrAt pkt e').rrType ≠ .opt) : rdataEnd pkt e' < 2^16 := by
    have hle : e'+10 ≤ rdEndAt pkt e' := hmoved hk
    rw [← rdEndAt_of_le hle]
    exact Nat.mod_lt _ (by decide)
  have hplace (hk : rrKind (hdrAt pkt e').rrType = .opt) : sc = .ar := by
    by_contra hsc
    rw [rrBody_entered hentry, rrTail] at hrun
    obtain ⟨out, u, hout, -⟩ := (bind_ok _ _ _ _ _).mp hrun
    have hk' : rrKind (hdrAt (loadEnv pkt).pkt e').rrType = .opt := hk
    unfold rrRdata at hout
    simp only [hk'] at hout
    unfold rdataOpt at hout
    rw [when_pos hsc] at hout
    cases hout
  refine ⟨hrange, hplace, ?_⟩
  have hfill := loads_rrFill (loadEnv_loads pkt) (loadEnv_quiet pkt) hat hrange hplace hcount hlen
    (stage_self s.msg sc).symm
  cases hfill with
  | exit run bad =>
    rw [rrBody_left hcount run] at hrun
    cases hrun
  | @ok a t ss ps st r' run msg copies puts post =>
    rw [rrBody_filled hcount run] at hrun
    cases hrun
    dsimp only at hmem
    rw [msg, countUp_records _ _ hcount] at hmem
    obtain rfl := List.singleton_inj.mp (List.append_cancel_left hmem)
    exact ⟨ss, ps, st, post.2, copies, puts⟩

/-- A record that was loaded and is shown did fit. -/
theorem record_fits {rc : ℤ} {t : DecState} {r : DnsRr Ptr} {st : NameStore}
    (hrun : rrBody (loadEnv pkt) sc s = .ok rc t)
    (hmem : records t.msg sc = records s.msg sc ++ [r]) (hshow : RrShows st r v) :
    Fits sc (slot s.msg sc) v fin ∧ Clean s.msg.store (loadedStrs v) := by
  obtain ⟨hrange, hplace, ss, ps, st', hloaded, copies, puts⟩ :=
    record_ran hat hcount hlen hrun hmem
  obtain ⟨hclean, hold⟩ := hloaded.clean copies puts hshow
  refine ⟨⟨hrange, hplace, fun ht => ?_⟩, hclean⟩
  have hzero := oldPtrs_nil.mp hold ht
  have hmax := hloaded.txt ht
  rw [hzero, Nat.zero_add] at hmax
  exact ⟨hzero, hmax.trans (by decide)⟩

/-- A record that was loaded into a fresh slot and all whose strings were stored is shown. -/
theorem record_shown {rc : ℤ} {t : DecState} {r : DnsRr Ptr}
    (hrun : rrBody (loadEnv pkt) sc s = .ok rc t)
    (hmem : records t.msg sc = records s.msg sc ++ [r])
    (hfresh : (slot s.msg sc).rdata.txtNumStr = 0)
    (hne : ∀ p ∈ rdPtrs r.rrType r.rdata, p ≠ .null) (h0 : ∀ x ∈ loadedStrs v, (0 : UInt8) ∉ x) :
    ∀ st, Later t.msg.store st → RrShows st r v := by
  obtain ⟨hrange, hplace, ss, ps, st', hloaded, copies, puts⟩ :=
    record_ran hat hcount hlen hrun hmem
  have hold : oldPtrs v.rrType (slot s.msg sc).rdata = [] := oldPtrs_nil.mpr fun _ => hfresh
  have hclean : Clean s.msg.store (loadedStrs v) := by
    refine clean_of_puts copies puts (fun p hp => ?_) h0
    obtain ⟨pre, qs, hpre, rfl, -, hptrs⟩ := hloaded.ptrs
    rw [hold, List.nil_append, ← hloaded.rrType] at hptrs
    rw [hptrs] at hne
    rcases List.mem_append.mp hp with hp | hp
    · exact hpre p hp
    rcases List.mem_cons.mp hp with rfl | hp
    · exact hloaded.owner
    · exact hne p hp
  have hfits : Fits sc (slot s.msg sc) v fin := by
    refine ⟨hrange, hplace, fun ht => ⟨hfresh, ?_⟩⟩
    have hmax := hloaded.txt ht
    rw [hfresh, Nat.zero_add] at hmax
    exact hmax.trans (by decide)
  obtain ⟨rc', t', st'', r', hrun', hmsg, -, -, -, hshow⟩ :=
    record_loaded hat hcount hlen hfits hclean
  rw [hrun] at hrun'
  cases hrun'
  rw [hmsg, countUp_records _ _ hcount] at hmem
  obtain rfl := List.singleton_inj.mp (List.append_cancel_left hmem)
  rw [hmsg, countUp_store, stage_store]
  exact hshow

end Entry

end DnsPkt.LoadedRecord
