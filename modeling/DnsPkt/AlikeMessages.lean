import DnsPkt.MessageHistory
import DnsPkt.RecordView

/-!
# Messages that look alike

Two messages are alike when everything that their counts cover is the same.
The free slots and the free part of the store may differ. Pointers are
compared as offsets; a pointer that was stored since the last reset shows the
same string in both messages, because both stores hold the same log intact.
-/

set_option autoImplicit false

namespace DnsPkt.AlikeMessages
open DnsPkt.CheckedRun DnsPkt.CheckedRun.Run DnsPkt.Octets DnsPkt.Protocol
open DnsPkt.MessageStore DnsPkt.MessageSlots DnsPkt.MessageBuild DnsPkt.RecordView
open DnsPkt.MessageHistory

inductive Seen where
  | null
  | text (b : Bytes)
  | wild
  deriving DecidableEq

def seen (st : NameStore) : Ptr → Seen
  | .null => .null
  | .ref off => .text (cstr (st.mem.drop off))
  | .wild => .wild

inductive RdNums where
  | a (addr : Vector UInt8 4)
  | soa (serial refresh retry expire minTtl : UInt32)
  | mx (pref : UInt16)
  | aaaa (addr : Vector UInt8 16)
  | srv (prior weight port : UInt16)
  | opt (udpSize : UInt16) (extRcode ednsVer : UInt8) (doBit : Bool) (zBits : BitVec 15)
  | none

def rdNums (rrType : UInt16) (r : Rdata Ptr) : RdNums :=
  match rrKind rrType with
  | .a => .a r.a
  | .soa => .soa r.soaSerial r.soaRefresh r.soaRetry r.soaExpire r.soaMinTtl
  | .mx => .mx r.mxPref
  | .aaaa => .aaaa r.aaaa
  | .srv => .srv r.srvPrior r.srvWeight r.srvPort
  | .opt => .opt r.optUdpSize r.optExtRcode r.optEdnsVer r.optDoBit r.optZBits
  | _ => .none

structure RrSeen where
  name : Seen
  rrType : UInt16
  rrClass : UInt16
  ttl : UInt32
  nums : RdNums
  strs : List Seen

structure MsgSeen where
  hdr : DnsHdr
  qd : List (DnsQd Seen)
  an : List RrSeen
  ns : List RrSeen
  ar : List RrSeen

def seeRr (st : NameStore) (r : DnsRr Ptr) : RrSeen :=
  ⟨seen st r.name, r.rrType, r.rrClass, r.ttl, rdNums r.rrType r.rdata,
    (rdPtrs r.rrType r.rdata).map (seen st)⟩

def observe (m : DnsMsg) : MsgSeen where
  hdr := m.hdr
  qd := if m.qdLen = 0 then [] else [⟨seen m.store m.qd.qname, m.qd.qtype, m.qd.qclass⟩]
  an := (records m .an).map (seeRr m.store)
  ns := (records m .ns).map (seeRr m.store)
  ar := (records m .ar).map (seeRr m.store)

def Valid (st : NameStore) (p : Ptr) : Prop := p = .null ∨ ∃ e ∈ st.log, p = .ref e.1

theorem seen_of_valid {st st' : NameStore} (hlog : st.log = st'.log) (hst : Intact st)
    (hst' : Intact st') {p : Ptr} (hp : Valid st p) : seen st p = seen st' p := by
  rcases hp with rfl | ⟨e, he, rfl⟩
  · rfl
  · have h : st.str (.ref e.1) = st'.str (.ref e.1) :=
      (hst e he).str.trans (hst' e (hlog ▸ he)).str.symm
    exact congrArg Seen.text (Option.some.inj h)

/-- One relation between slots for all conditions `V` on their pointers. -/
abbrev SlotRel := (Ptr → Prop) → DnsRr Ptr → DnsRr Ptr → Prop

abbrev RdataRel := (Ptr → Prop) → Rdata Ptr → Rdata Ptr → Prop

structure HeadAlike (rrType : UInt16) (V : Ptr → Prop) (r r' : DnsRr Ptr) : Prop where
  name : r.name = r'.name
  valid : V r.name
  type_l : r.rrType = rrType
  type_r : r'.rrType = rrType
  rrClass : r.rrClass = r'.rrClass
  ttl : r.ttl = r'.ttl

structure RdAlike (rrType : UInt16) (V : Ptr → Prop) (r r' : Rdata Ptr) : Prop where
  nums : rdNums rrType r = rdNums rrType r'
  ptrs : rdPtrs rrType r = rdPtrs rrType r'
  valid : ∀ p ∈ rdPtrs rrType r, V p

def OfType (rrType : UInt16) (S : RdataRel) : SlotRel :=
  fun V r r' => HeadAlike rrType V r r' ∧ S V r.rdata r'.rdata

def RrAlike : SlotRel := fun V r r' => ∃ rrType, OfType rrType (RdAlike rrType) V r r'

theorem RrAlike.mono {V W : Ptr → Prop} (hVW : ∀ p, V p → W p) {r r' : DnsRr Ptr}
    (h : RrAlike V r r') : RrAlike W r r' := by
  obtain ⟨ty, ⟨h1, h2, h3, h4, h5, h6⟩, h7, h8, h9⟩ := h
  exact ⟨ty, ⟨h1, hVW _ h2, h3, h4, h5, h6⟩, h7, h8, fun p hp => hVW p (h9 p hp)⟩

theorem RrAlike.see {st st' : NameStore} (hseen : ∀ p, Valid st p → seen st p = seen st' p)
    {r r' : DnsRr Ptr} (h : RrAlike (Valid st) r r') : seeRr st r = seeRr st' r' := by
  obtain ⟨ty, ⟨hname, hvalid, hl, hr, hclass, httl⟩, hnums, hptrs, hall⟩ := h
  have hstrs : (rdPtrs ty r.rdata).map (seen st) = (rdPtrs ty r'.rdata).map (seen st') := by
    rw [← hptrs]
    exact List.map_congr_left fun p hp => hseen p (hall p hp)
  simp only [seeRr, hl, hr, hclass, httl, hnums, hstrs, ← hname, hseen _ hvalid]

structure QdAlike (V : Ptr → Prop) (q q' : DnsQd Ptr) : Prop where
  eq : q = q'
  valid : V q.qname

structure Alike (m m' : DnsMsg) : Prop where
  hdr : m.hdr = m'.hdr
  len : m.store.len = m'.store.len
  log : m.store.log = m'.store.log
  intact_l : Intact m.store
  intact_r : Intact m'.store
  sized_l : Sized m
  sized_r : Sized m'
  qdLen : m.qdLen = m'.qdLen
  qd : 0 < m.qdLen → QdAlike (Valid m.store) m.qd m'.qd
  count : ∀ sc, (m.sect sc).count = (m'.sect sc).count
  recs : ∀ sc, List.Forall₂ (RrAlike (Valid m.store)) (records m sc) (records m' sc)

theorem Alike.observe {m m' : DnsMsg} (h : Alike m m') : observe m = observe m' := by
  have hseen (p : Ptr) (hp : Valid m.store p) : seen m.store p = seen m'.store p :=
    seen_of_valid h.log h.intact_l h.intact_r hp
  have hrecs (sc : Sect) :
      (records m sc).map (seeRr m.store) = (records m' sc).map (seeRr m'.store) := by
    have heq : List.Forall₂ Eq ((records m sc).map (seeRr m.store))
        ((records m' sc).map (seeRr m'.store)) := by
      rw [List.forall₂_map_left_iff, List.forall₂_map_right_iff]
      exact (h.recs sc).imp fun _ _ hr => hr.see hseen
    rwa [List.forall₂_eq_eq_eq] at heq
  have hqd : (if m.qdLen = 0 then [] else
      [(⟨seen m.store m.qd.qname, m.qd.qtype, m.qd.qclass⟩ : DnsQd Seen)]) =
      if m'.qdLen = 0 then [] else [⟨seen m'.store m'.qd.qname, m'.qd.qtype, m'.qd.qclass⟩] := by
    rw [← h.qdLen]
    by_cases h0 : m.qdLen = 0
    · rw [if_pos h0, if_pos h0]
    · obtain ⟨heq, hv⟩ := h.qd (by omega)
      rw [if_neg h0, if_neg h0, ← heq, hseen _ hv]
  simp only [AlikeMessages.observe, h.hdr, hqd, hrecs]

theorem valid_later {st st' : NameStore} {str : Bytes} {off : ℕ}
    (h : msgStoreStr st str = some (off, st')) {p : Ptr} (hp : Valid st p) : Valid st' p := by
  refine hp.imp_right ?_
  rintro ⟨e, he, rfl⟩
  exact ⟨e, by rw [msgStoreStr_log h]; simp [he], rfl⟩

theorem valid_new {st st' : NameStore} {str : Bytes} {off : ℕ}
    (h : msgStoreStr st str = some (off, st')) : Valid st' (.ref off) :=
  .inr ⟨(off, str), by rw [msgStoreStr_log h]; simp, rfl⟩

theorem msgStoreStr_off {st st' : NameStore} {str : Bytes} {off : ℕ}
    (h : msgStoreStr st str = some (off, st')) : off = st.len := by
  unfold msgStoreStr at h
  split_ifs at h
  cases h
  rfl

/-- Whether and where a string is stored depends on the length of the store alone. -/
theorem msgStoreStr_alike {st1 st2 : NameStore} (hlen : st1.len = st2.len)
    (hlog : st1.log = st2.log) (str : Bytes) :
    (msgStoreStr st1 str = none ∧ msgStoreStr st2 str = none) ∨
      ∃ off st1' st2', msgStoreStr st1 str = some (off, st1') ∧
        msgStoreStr st2 str = some (off, st2') ∧ st1'.len = st2'.len ∧ st1'.log = st2'.log := by
  have hsome : (msgStoreStr st1 str).isSome ↔ (msgStoreStr st2 str).isSome := by
    rw [msgStoreStr_isSome, msgStoreStr_isSome, hlen]
  cases h1 : msgStoreStr st1 str with
  | none =>
    rw [h1] at hsome
    exact .inl ⟨rfl, by simpa using hsome⟩
  | some p =>
    rw [h1] at hsome
    obtain ⟨q, h2⟩ := Option.isSome_iff_exists.mp (hsome.mp rfl)
    have hoff : p.1 = q.1 := by rw [msgStoreStr_off h1, msgStoreStr_off h2, hlen]
    refine .inr ⟨p.1, p.2, q.2, rfl, hoff ▸ h2, ?_, ?_⟩
    · rw [(msgStoreStr_some h1).2.2.1, (msgStoreStr_some h2).2.2.1, hlen]
    · rw [msgStoreStr_log h1, msgStoreStr_log h2, hlog, hoff]

theorem Alike.setStore {m m' : DnsMsg} (h : Alike m m') {str : Bytes} {off : ℕ}
    {st st' : NameStore} (hl : msgStoreStr m.store str = some (off, st))
    (hr : msgStoreStr m'.store str = some (off, st')) (hlen : st.len = st'.len)
    (hlog : st.log = st'.log) : Alike { m with store := st } { m' with store := st' } where
  hdr := h.hdr
  len := hlen
  log := hlog
  intact_l := intact_store hl h.intact_l
  intact_r := intact_store hr h.intact_r
  sized_l := sized_of_slots (fun sc => by cases sc <;> rfl) h.sized_l
  sized_r := sized_of_slots (fun sc => by cases sc <;> rfl) h.sized_r
  qdLen := h.qdLen
  qd h0 := ⟨(h.qd h0).eq, valid_later hl (h.qd h0).valid⟩
  count sc := by
    have := h.count sc
    cases sc <;> exact this
  recs sc := by
    have := (h.recs sc).imp fun _ _ hr => hr.mono fun p hp => valid_later hl hp
    cases sc <;> exact this

theorem modifySlot_eq (m : DnsMsg) (sc : Sect) (f : DnsRr Ptr → DnsRr Ptr) :
    m.modifySlot sc f = stage m sc m.store (f (slot m sc)) := by
  have h := stage_modifySlot m sc m.store (slot m sc) f
  rwa [stage_self] at h

/-- The free slots do not matter. -/
theorem Alike.modifySlot {m m' : DnsMsg} (h : Alike m m') (sc : Sect)
    {f f' : DnsRr Ptr → DnsRr Ptr} (hf : KeepsTxt f) (hf' : KeepsTxt f') :
    Alike (m.modifySlot sc f) (m'.modifySlot sc f') := by
  have hl := sized_modifySlot h.sized_l hf sc
  have hr := sized_modifySlot h.sized_r hf' sc
  rw [modifySlot_eq] at hl hr ⊢
  rw [modifySlot_eq]
  constructor
  case sized_l => exact hl
  case sized_r => exact hr
  all_goals simp only [stage_hdr, stage_store, stage_qd, stage_qdLen, stage_count, records_stage]
  case hdr => exact h.hdr
  case len => exact h.len
  case log => exact h.log
  case intact_l => exact h.intact_l
  case intact_r => exact h.intact_r
  case qdLen => exact h.qdLen
  case qd => exact h.qd
  case count => exact h.count
  case recs => exact h.recs

theorem Alike.setHdr {m m' : DnsMsg} (h : Alike m m') (hdr : DnsHdr) :
    Alike { m with hdr := hdr } { m' with hdr := hdr } :=
  { h with
    hdr := rfl
    sized_l := sized_of_slots (fun sc => by cases sc <;> rfl) h.sized_l
    sized_r := sized_of_slots (fun sc => by cases sc <;> rfl) h.sized_r
    count := fun sc => by
      have := h.count sc
      cases sc <;> exact this
    recs := fun sc => by
      have := h.recs sc
      cases sc <;> exact this }

theorem alike_reset {m m' : DnsMsg} (hm : Sized m) (hm' : Sized m') :
    Alike (dnsMsgReset m) (dnsMsgReset m') where
  hdr := rfl
  len := rfl
  log := rfl
  intact_l e he := by cases he
  intact_r e he := by cases he
  sized_l := sized_of_slots (fun sc => by cases sc <;> rfl) hm
  sized_r := sized_of_slots (fun sc => by cases sc <;> rfl) hm'
  qdLen := rfl
  qd h := absurd h (Nat.lt_irrefl 0)
  count sc := by cases sc <;> rfl
  recs sc := by cases sc <;> exact .nil

/-- A message with another question and number of questions. -/
theorem Alike.setQd {m m' : DnsMsg} (h : Alike m m') {q r : DnsQd Ptr} {n k : ℕ}
    (hn : n ≤ dnsMaxQd) (hk : k ≤ dnsMaxQd) (hnk : n = k)
    (hq : 0 < n → QdAlike (Valid m.store) q r) :
    Alike { m with qd := q, qdLen := n, qd_fits := hn }
      { m' with qd := r, qdLen := k, qd_fits := hk } :=
  { h with
    qdLen := hnk
    qd := hq
    sized_l := sized_of_slots (fun sc => by cases sc <;> rfl) h.sized_l
    sized_r := sized_of_slots (fun sc => by cases sc <;> rfl) h.sized_r
    count := fun sc => by
      have := h.count sc
      cases sc <;> exact this
    recs := fun sc => by
      have := h.recs sc
      cases sc <;> exact this }

/-- The relation holds for the pointers that are valid now, and so for those valid later. -/
structure Filling (sc : Sect) (S : SlotRel) (m m' : DnsMsg) : Prop where
  alike : Alike m m'
  free : (m.sect sc).count < dnsMaxRr
  slots : ∀ V : Ptr → Prop, (∀ p, Valid m.store p → V p) → S V (slot m sc) (slot m' sc)

section Filling

variable {m m' : DnsMsg} {sc : Sect} {S T : SlotRel}

theorem Filling.setStore (h : Filling sc S m m') {str : Bytes} {off : ℕ} {st st' : NameStore}
    (hl : msgStoreStr m.store str = some (off, st))
    (hr : msgStoreStr m'.store str = some (off, st')) (hlen : st.len = st'.len)
    (hlog : st.log = st'.log) : Filling sc S { m with store := st } { m' with store := st' } where
  alike := h.alike.setStore hl hr hlen hlog
  free := by
    have := h.free
    cases sc <;> exact this
  slots V hV := by
    have := h.slots V fun p hp => hV p (valid_later hl hp)
    cases sc <;> exact this

/-- What `msg_store_str` returns for one string, with the stores it leaves. -/
theorem Filling.stored (h : Filling sc S m m') (str : Bytes) :
    (msgStoreStr m.store str = none ∧ msgStoreStr m'.store str = none) ∨
      ∃ off st st', msgStoreStr m.store str = some (off, st) ∧
        msgStoreStr m'.store str = some (off, st') ∧ Valid st (.ref off) ∧
        Filling sc S { m with store := st } { m' with store := st' } := by
  rcases msgStoreStr_alike h.alike.len h.alike.log str with hn | ⟨off, st, st', hl, hr, hlen, hlog⟩
  · exact .inl hn
  · exact .inr ⟨off, st, st', hl, hr, valid_new hl, h.setStore hl hr hlen hlog⟩

theorem slot_modifySlot (hfree : (m.sect sc).count < dnsMaxRr) (f : DnsRr Ptr → DnsRr Ptr) :
    slot (m.modifySlot sc f) sc = f (slot m sc) := by
  rw [modifySlot_eq, slot_stage _ _ hfree]

theorem Filling.write (h : Filling sc S m m') {f f' : DnsRr Ptr → DnsRr Ptr} (hf : KeepsTxt f)
    (hf' : KeepsTxt f') (hT : ∀ V : Ptr → Prop, (∀ p, Valid m.store p → V p) →
      S V (slot m sc) (slot m' sc) → T V (f (slot m sc)) (f' (slot m' sc))) :
    Filling sc T (m.modifySlot sc f) (m'.modifySlot sc f') where
  alike := h.alike.modifySlot sc hf hf'
  free := by
    rw [(Touch.slot sc hf).counts.2]
    exact h.free
  slots V hV := by
    have hfree : (m'.sect sc).count < dnsMaxRr := h.alike.count sc ▸ h.free
    have hV : ∀ p, Valid m.store p → V p := by
      rw [modifySlot_eq, stage_store] at hV
      exact hV
    rw [slot_modifySlot h.free, slot_modifySlot hfree]
    exact hT V hV (h.slots V hV)

theorem records_countUp (hfree : (m.sect sc).count < dnsMaxRr) :
    records (m.countUp sc) sc = records m sc ++ [slot m sc] := by
  have h := countUp_records m.store (slot m sc) hfree
  rwa [stage_self] at h

theorem count_countUp (hfree : (m.sect sc).count < dnsMaxRr) (sc' : Sect) :
    ((m.countUp sc).sect sc').count =
      if sc' = sc then (m.sect sc').count+1 else (m.sect sc').count := by
  unfold DnsMsg.countUp
  dsimp only
  rw [dif_pos (Nat.succ_le_of_lt hfree)]
  cases sc <;> cases sc' <;> rfl

/-- A record that is counted in both messages. -/
theorem Filling.count (h : Filling sc RrAlike m m') :
    Alike (m.countUp sc) (m'.countUp sc) := by
  have hfree : (m'.sect sc).count < dnsMaxRr := h.alike.count sc ▸ h.free
  constructor
  case sized_l => exact sized_of_slots (slots_countUp m sc) h.alike.sized_l
  case sized_r => exact sized_of_slots (slots_countUp m' sc) h.alike.sized_r
  case recs =>
    intro sc'
    rw [countUp_store]
    by_cases hsc : sc' = sc
    · subst hsc
      rw [records_countUp h.free, records_countUp hfree]
      exact List.rel_append (h.alike.recs sc') (.cons (h.slots _ fun _ hp => hp) .nil)
    · rw [countUp_records_ne hsc, countUp_records_ne hsc]
      exact h.alike.recs sc'
  case count =>
    intro sc'
    rw [count_countUp h.free, count_countUp hfree, h.alike.count]
  all_goals simp only [hdr_countUp, countUp_store, countUp_qd]
  case hdr => exact h.alike.hdr
  case len => exact h.alike.len
  case log => exact h.alike.log
  case intact_l => exact h.alike.intact_l
  case intact_r => exact h.alike.intact_r
  case qdLen => exact h.alike.qdLen
  case qd => exact h.alike.qd

end Filling

end DnsPkt.AlikeMessages
