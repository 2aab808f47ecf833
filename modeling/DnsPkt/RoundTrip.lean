import DnsPkt.EncodedFrames
import DnsPkt.LoadedMessage
import DnsPkt.RecordText

/-!
# Messages there and back

The packet of a message holds its question and its records, each at the end
of the one before it. With one record in each section no name is behind more
pointers than the decoder follows. The loader takes one record of each section
and needs room for the texts, so these messages come back, and no others whose
records are written part by part.
-/

set_option autoImplicit false

namespace DnsPkt.RoundTrip
open DnsPkt.CheckedRun DnsPkt.CheckedRun.Run DnsPkt.Octets DnsPkt.Protocol DnsPkt.WireName
open DnsPkt.MessageStore DnsPkt.MessageSlots DnsPkt.NameCompression DnsPkt.PacketWriter
open DnsPkt.MessageBuild DnsPkt.MessageEncoder DnsPkt.EncodedMessage DnsPkt.MessageLayout
open DnsPkt.RecordDecoder DnsPkt.MessageDecoder DnsPkt.RecordRun DnsPkt.RecordView
open DnsPkt.WrittenRecord DnsPkt.ValidatedMessage DnsPkt.LoadedRecord DnsPkt.LoadedMessage
open DnsPkt.RecordText DnsPkt.MessageHistory DnsPkt.MessageRun DnsPkt.AcceptedRun

section Written

variable {N : List Bytes → Prop} {st : NameStore} {pkt : Bytes}

theorem nameCount_data {r : DnsRr Ptr} {ps : List Part} (h : RdParts st r ps) :
    nameCount ps ≤ 2 := by
  unfold RdParts at h
  cases hk : rrKind r.rrType with
  | a | aaaa | opt | any | other =>
    simp only [hk] at h
    subst h
    exact Nat.zero_le _
  | ns | cname | ptr =>
    simp only [hk] at h
    obtain ⟨ls, -, rfl⟩ := h
    exact Nat.le_succ 1
  | soa =>
    simp only [hk] at h
    obtain ⟨ls, ls', -, -, rfl⟩ := h
    exact le_rfl
  | hinfo =>
    simp only [hk] at h
    obtain ⟨os, -, -, rfl⟩ := h
    exact Nat.zero_le _
  | txt =>
    simp only [hk] at h
    obtain ⟨strs, -, rfl⟩ := h
    rw [show (strs.map fun str => Part.raw (charStr str)) = (strs.map charStr).map .raw by
      rw [List.map_map]; rfl, nameCount_raws]
    exact Nat.zero_le _
  | mx | srv => simp only [hk] at h

theorem slot_strs {r : DnsRr Ptr} (h : SlotOk N st r) : ∀ p ∈ rdStrs r.rrType r.rdata,
    (textOf st p).length ≤ dnsNameMaxstr ∧ (0 : UInt8) ∉ textOf st p := by
  intro p hp
  rcases h.strs p hp with rfl | hs
  · exact ⟨Nat.zero_le _, List.not_mem_nil⟩
  · obtain ⟨str, -, h0, hle, hstr⟩ := hs.str
    rw [textOf, hstr]
    exact ⟨hle, h0⟩

/-- A text array has no more strings than places. -/
theorem txt_fits {r : DnsRr Ptr} (hr : SlotOk N st r)
    (hlen : r.rdata.txtStr.length = dnsMaxTxt) (hk : rrKind r.rrType = .txt) :
    r.rdata.txtNumStr ≤ dnsMaxTxt := by
  by_contra hlong
  have hmem : Ptr.wild ∈ rdStrs r.rrType r.rdata := by
    have hstrs : rdStrs r.rrType r.rdata = txtPtrs r.rdata := by
      rw [rdStrs, hk]
    rw [hstrs, txtPtrs]
    refine List.mem_map.mpr ⟨dnsMaxTxt, List.mem_range.mpr (Nat.lt_of_not_le hlong), ?_⟩
    rw [List.getD_eq_getElem?_getD, List.getElem?_eq_none hlen.le]
    rfl
  rcases hr.strs _ hmem with h | h
  · cases h
  · obtain ⟨str, -, -, -, h⟩ := h.str
    cases h

theorem length_txt {r : DnsRr Ptr} {v : RrView} (h : WrittenView st r v)
    (hk : rrKind r.rrType = .txt) : v.rdata.strs.length = r.rdata.txtNumStr := by
  obtain ⟨ns, ss, hstrs, hns, hss⟩ := h.rdata.strs
  have hnames : rdNames r.rrType r.rdata = [] := by
    rw [rdNames, hk]
  have htxt : rdStrs r.rrType r.rdata = txtPtrs r.rdata := by
    rw [rdStrs, hk]
  rw [hstrs, List.length_append, ← hns.length_eq, ← hss.length_eq, hnames, htxt, txtPtrs,
    List.length_map, List.length_range, List.length_nil, Nat.zero_add]

/-- Where the records of a section stand, if there are few of them. -/
theorem records_at {rrs : List (DnsRr Ptr)} {rs : List Record}
    (hrs : List.Forall₂ (RecordLayout N st) rrs rs) (hslots : ∀ r ∈ rrs, SlotOk N st r)
    (hg : ∀ r ∈ rs, r.Good) {w : Writer} (hw : w.Sound 12)
    (hlow : (records dnsMaxSuffix w rs).pkt.length ≤ 2^14)
    (hb : (records dnsMaxSuffix w rs).pkt <+: pkt) {k : ℕ} (hk : Below k w)
    (hfew : k+3*rs.length ≤ dnsMaxJmp+1) :
    ∃ vs, RecordsAt pkt w.pkt.length vs (records dnsMaxSuffix w rs).pkt.length ∧
      List.Forall₂ (WrittenView st) rrs vs ∧ Below (k+3*rs.length) (records dnsMaxSuffix w rs) := by
  induction hrs generalizing w k with
  | nil => exact ⟨[], rfl, .nil, hk⟩
  | @cons rr r rrs rs hr _ ih =>
    have hgrow := records_grow dnsMaxSuffix (record dnsMaxSuffix w r) rs
    have hgood := hg r (by simp)
    have hlow1 : (record dnsMaxSuffix w r).pkt.length ≤ 2^14 := hgrow.length_le.trans hlow
    have hslot := hslots rr (by simp)
    rw [List.length_cons] at hfew ⊢
    have hdata : nameCount r.data ≤ 2 := nameCount_data hr.written.2.1
    have hnames : nameCount (r.parts (encU16 (UInt16.ofNat (dataLen dnsMaxSuffix w r)))) ≤ 3 :=
      Nat.succ_le_succ hdata
    have hdepth : k+nameCount (r.parts (encU16 (UInt16.ofNat (dataLen dnsMaxSuffix w r)))) ≤
        dnsMaxJmp+1 := by omega
    obtain ⟨hshallow, hbelow⟩ := shallow_of_count (N := dnsMaxSuffix) hk hdepth
    rw [← record_parts] at hbelow
    obtain ⟨v, hat, hv⟩ := record_written hr.written (fun p hp s hs => by
      have := (slot_strs hslot p hp).1
      rw [textOf, hs.2] at this
      exact this.trans_lt (by decide)) hw hlow1 hgood hshallow (hgrow.trans hb)
    obtain ⟨vs, hats, hvs, hbelow'⟩ := ih (fun x hx => hslots x (by simp [hx]))
      (fun x hx => hg x (by simp [hx])) (sound_record hw hgood hlow1) hlow hb
      (hbelow.mono (show _ ≤ k+3 by omega)) (by omega)
    exact ⟨v :: vs, ⟨_, hat, hats⟩, .cons hv hvs, hbelow'.mono (by omega)⟩

structure QdWritten (st : NameStore) (q : DnsQd Ptr) (v : DnsQd Bytes) : Prop where
  name : NameWritten st q.qname (shown v.qname)
  same : fold v.qname = fold (textOf st q.qname)
  qtype : v.qtype = q.qtype
  qclass : v.qclass = q.qclass

theorem QdWritten.storable {q : DnsQd Ptr} {v : DnsQd Bytes} (h : QdWritten st q v) :
    v.qname.length ≤ dnsNameMaxstr ∧ (0 : UInt8) ∉ v.qname := by
  obtain ⟨hle, h0⟩ := h.name.storable
  refine ⟨(length_le_shown _).trans hle, fun hmem => ?_⟩
  rw [shown, if_neg (List.ne_nil_of_mem hmem)] at h0
  exact h0 hmem

theorem question_at {m : DnsMsg} {q : List Part} (hq : QuestParts m q) {w : Writer}
    (hw : w.Sound 12) (hlow : (parts dnsMaxSuffix w q).pkt.length ≤ 2^14) (hg : ∀ p ∈ q, p.Good)
    (hb : (parts dnsMaxSuffix w q).pkt <+: pkt) (hk : Below 0 w) :
    ∃ qs, QuestionsAt pkt w.pkt.length qs (parts dnsMaxSuffix w q).pkt.length ∧
      List.Forall₂ (QdWritten m.store) (questions m) qs ∧ Below 1 (parts dnsMaxSuffix w q) := by
  have hcount : nameCount q ≤ 1 := by
    unfold QuestParts at hq
    split at hq
    · obtain ⟨ls, -, rfl⟩ := hq
      exact le_rfl
    · subst hq
      exact Nat.zero_le _
  have hdepth : 0+nameCount q ≤ dnsMaxJmp+1 := by
    rw [Nat.zero_add]
    exact hcount.trans (by decide)
  obtain ⟨hshallow, hbelow⟩ := shallow_of_count (N := dnsMaxSuffix) hk hdepth
  rw [Nat.zero_add] at hbelow
  by_cases h1 : m.qdLen = 1
  · obtain ⟨ls, ls', hn, hsame, hat⟩ := question_written hq h1 hw hlow hg hshallow hb
    refine ⟨[⟨dotted ls', m.qd.qtype, m.qd.qclass⟩], ⟨_, hat, rfl⟩, ?_, hbelow.mono hcount⟩
    rw [questions, h1]
    refine .cons ⟨⟨ls, ls', hn, hsame, rfl⟩, ?_, rfl, rfl⟩ .nil
    rw [textOf, hn.text, fold_dotted, fold_dotted, hsame]
  · have hzero : m.qdLen = 0 := by
      have hfits : m.qdLen ≤ 1 := m.qd_fits
      omega
    rw [QuestParts, if_neg h1] at hq
    subst hq
    refine ⟨[], rfl, ?_, hbelow.mono hcount⟩
    rw [questions, hzero]
    exact .nil

end Written

def bySect {α : Type} (an ns ar : α) : Sect → α
  | .an => an
  | .ns => ns
  | .ar => ar

structure Sent (m : DnsMsg) (pkt : Bytes) (qs : List (DnsQd Bytes)) (vs : Sect → List RrView)
    (fin : Sect → ℕ) : Prop where
  header : dnsHdrLen ≤ pkt.length ∧ hdrOf pkt = syncHdr m
  entries : Entries pkt qs vs fin
  quests : List.Forall₂ (QdWritten m.store) (questions m) qs
  records : ∀ sc, List.Forall₂ (WrittenView m.store) (MessageSlots.records m sc) (vs sc)
  low : ∀ sc, fin sc < 2^16

theorem message_sent {N : List Bytes → Prop} {K : RrKind → Prop} {m : DnsMsg} (hok : MsgOk N K m)
    {q : List Part} {rs : Sect → List Record} (hlay : MsgLayout N m q rs) (hg : GoodLayout q rs)
    (hone : ∀ sc, (m.sect sc).count ≤ 1) :
    ∃ qs vs fin, Sent m (messageWriter (hdrBytes (syncHdr m)) q rs).pkt qs vs fin := by
  have hfew (sc : Sect) : (rs sc).length ≤ 1 := by
    rw [← (hlay.sects sc).length_eq, length_records]
    exact hone sc
  have hslots (sc : Sect) : ∀ r ∈ MessageSlots.records m sc, SlotOk N m.store r :=
    fun r hr => (hok.slots sc r hr).1
  obtain ⟨w1, w2, w3, hst⟩ := layout_stages hok hlay hg
  obtain rfl := hst.front
  obtain rfl := hst.an
  obtain rfl := hst.ns
  have hnone : Below 0 ⟨hdrBytes (syncHdr m), []⟩ := fun e he => absurd he List.not_mem_nil
  have hmax : (16 : ℕ) ≤ dnsMaxJmp+1 := by decide
  obtain ⟨qs, hqs, hquests, hb1⟩ := question_at hlay.quest.parts hst.sound hst.low1 hg.1 hst.grow1
    hnone
  obtain ⟨an, han, hvan, hb2⟩ := records_at (hlay.sects .an) (hslots .an) (hg.2 .an) hst.sound1
    hst.low2 hst.grow2 hb1 (by have := hfew .an; omega)
  obtain ⟨ns, hns, hvns, hb3⟩ := records_at (hlay.sects .ns) (hslots .ns) (hg.2 .ns) hst.sound2
    hst.low3 hst.grow3 hb2 (by have := hfew .an; have := hfew .ns; omega)
  obtain ⟨ar, har, hvar, -⟩ := records_at (hlay.sects .ar) (hslots .ar) (hg.2 .ar) hst.sound3
    hst.low (List.prefix_refl _) hb3
    (by have := hfew .an; have := hfew .ns; have := hfew .ar; omega)
  refine ⟨qs, bySect an ns ar, bySect _ _ _, ⟨hst.grow0.length_le, hdrOf_written hst.grow0⟩,
    ⟨⟨_, hqs, han⟩, hns, har⟩, hquests, fun sc => ?_, fun sc => ?_⟩
  · cases sc with
    | an => exact hvan
    | ns => exact hvns
    | ar => exact hvar
  · have hlt {k : ℕ} (h : k ≤ 2^14) : k < 2^16 := by omega
    cases sc with
    | an => exact hlt hst.low2
    | ns => exact hlt hst.low3
    | ar => exact hlt hst.low

structure SameQd (st st' : NameStore) (q q' : DnsQd Ptr) : Prop where
  there : (st.str q.qname).isSome
  back : (st'.str q'.qname).isSome
  name : fold (textOf st' q'.qname) = fold (textOf st q.qname)
  qtype : q'.qtype = q.qtype
  qclass : q'.qclass = q.qclass

structure SameMsg (m m' : DnsMsg) : Prop where
  id : m'.hdr.id = m.hdr.id
  flags : m'.hdr.flags = m.hdr.flags
  quests : List.Forall₂ (SameQd m.store m'.store) (questions m) (questions m')
  records : ∀ sc, List.Forall₂ (SameRr m.store m'.store) (MessageSlots.records m sc)
    (MessageSlots.records m' sc)

/-- The loader accepts the packet and gives back the message. -/
def ComesBack (m : DnsMsg) (pkt : Bytes) (base : ℕ) : Prop :=
  ∃ t, dnsMsgDecode (zeroMsg base) pkt = .ok 0 t ∧ SameMsg m t.msg

/-- A record that is written part by part and shows all its strings, and where it is an `OPT`
record, a plain one in the additional section. -/
structure Kept (sc : Sect) (st : NameStore) (r : DnsRr Ptr) : Prop where
  parts : Partwise st r
  there : Present st r
  place : rrKind r.rrType = .opt → sc = .ar
  opt : rrKind r.rrType = .opt → PlainOpt r

def sectRoom (m : DnsMsg) (sc : Sect) : ℕ := ((records m sc).map (rrRoom m.store)).sum

/-- The room that the texts of a message take in the store of the decoder. -/
def msgRoom (m : DnsMsg) : ℕ :=
  ((questions m).map fun q => strRoom m.store q.qname).sum+
    (sectRoom m .an+(sectRoom m .ns+sectRoom m .ar))

/-- One record in each section at most, all of them kept, and room for the texts. -/
structure Small (m : DnsMsg) : Prop where
  one : ∀ sc, (m.sect sc).count ≤ 1
  kept : ∀ sc, ∀ r ∈ records m sc, Kept sc m.store r
  room : msgRoom m ≤ dnsMaxPdusize

section Room

variable {st : NameStore}

theorem quests_room {qs : List (DnsQd Ptr)} {vs : List (DnsQd Bytes)}
    (h : List.Forall₂ (QdWritten st) qs vs) :
    storeSize (vs.map DnsQd.qname) = (qs.map fun q => strRoom st q.qname).sum := by
  induction h with
  | nil => rfl
  | @cons q v qs vs hq _ ih =>
    have hlen := congrArg List.length hq.same
    rw [length_fold, length_fold] at hlen
    rw [List.map_cons, storeSize_cons, ih, hlen, List.map_cons, List.sum_cons, strRoom]

theorem records_room {rrs : List (DnsRr Ptr)} {vs : List RrView}
    (h : List.Forall₂ (WrittenView st) rrs vs) :
    storeSize (vs.flatMap loadedStrs) = (rrs.map (rrRoom st)).sum := by
  induction h with
  | nil => rfl
  | cons hr _ ih =>
    rw [List.flatMap_cons, storeSize_append, ih, room_written hr, List.map_cons, List.sum_cons]

theorem written_strs {N : List Bytes → Prop} {r : DnsRr Ptr} {v : RrView}
    (h : WrittenView st r v) (hr : SlotOk N st r) :
    ∀ x ∈ loadedStrs v, x.length ≤ dnsNameMaxstr ∧ (0 : UInt8) ∉ x := by
  obtain ⟨ns, ss, hstrs, hns, hss⟩ := h.rdata.strs
  have hname := h.name.storable
  intro x hx
  rw [loadedStrs, hstrs, strOf_text hss] at hx
  rcases List.mem_append.mp hx with hx | hx
  · split at hx
    · exact List.mem_singleton.mp hx ▸ hname
    · exact absurd hx List.not_mem_nil
  rcases List.mem_cons.mp hx with rfl | hx
  · exact hname
  rcases List.mem_append.mp hx with hx | hx
  · obtain ⟨p, -, hp⟩ := forall₂_right hns x hx
    exact hp.storable
  · obtain ⟨p, hp, rfl⟩ := List.mem_map.mp hx
    exact slot_strs hr p hp

end Room

section Sent

variable {N : List Bytes → Prop} {K : RrKind → Prop} {m : DnsMsg} {pkt : Bytes}
  {qs : List (DnsQd Bytes)} {vs : Sect → List RrView} {fin : Sect → ℕ} (hok : MsgOk N K m)
  (hsent : Sent m pkt qs vs fin)

include hsent

theorem sent_room : storeSize (qs.map DnsQd.qname ++ ((vs .an).flatMap loadedStrs ++
    ((vs .ns).flatMap loadedStrs ++ (vs .ar).flatMap loadedStrs))) = msgRoom m := by
  simp only [storeSize_append, quests_room hsent.quests, records_room (hsent.records _)]
  rfl

theorem sent_quests : qs.length = (hdrOf pkt).qdCount.toNat := by
  rw [hsent.header.2, qdCount_sync, ← length_questions, hsent.quests.length_eq]

theorem sent_counts (sc : Sect) : (vs sc).length = sectCount (hdrOf pkt) sc := by
  rw [hsent.header.2, sectCount_sync, (hsent.records sc).length_eq]

include hok

theorem sent_strs (sc : Sect) :
    ∀ x ∈ (vs sc).flatMap loadedStrs, x.length ≤ dnsNameMaxstr ∧ (0 : UInt8) ∉ x := by
  intro x hx
  obtain ⟨v, hv, hx⟩ := List.mem_flatMap.mp hx
  obtain ⟨r, hr, hw⟩ := forall₂_right (hsent.records sc) v hv
  exact written_strs hw (hok.slots sc r hr).1 x hx

theorem sent_room_fits (hroom : msgRoom m ≤ dnsMaxPdusize) (base : ℕ) :
    Clean (dnsMsgReset (zeroMsg base)).store (qs.map DnsQd.qname ++
      ((vs .an).flatMap loadedStrs ++ ((vs .ns).flatMap loadedStrs ++
        (vs .ar).flatMap loadedStrs))) := by
  have hall : ∀ x ∈ qs.map DnsQd.qname ++ ((vs .an).flatMap loadedStrs ++
      ((vs .ns).flatMap loadedStrs ++ (vs .ar).flatMap loadedStrs)),
      x.length ≤ dnsNameMaxstr ∧ (0 : UInt8) ∉ x := by
    intro x hx
    simp only [List.mem_append] at hx
    rcases hx with hx | hx | hx | hx
    · obtain ⟨v, hv, rfl⟩ := List.mem_map.mp hx
      obtain ⟨q, -, hq⟩ := forall₂_right hsent.quests v hv
      exact hq.storable
    · exact sent_strs hok hsent .an x hx
    · exact sent_strs hok hsent .ns x hx
    · exact sent_strs hok hsent .ar x hx
  refine ⟨fun x hx => (hall x hx).1, ?_, fun x hx => (hall x hx).2⟩
  rw [sent_room hsent]
  exact (Nat.zero_add _).trans_le hroom

theorem sent_loadable (hsized : Sized m) (hm : Small m) (base : ℕ) :
    Loadable (zeroMsg base) pkt qs vs fin where
  entries := hsent.entries
  qdCount := sent_quests hsent
  counts := sent_counts hsent
  oneQd := by
    rw [← hsent.quests.length_eq, length_questions]
    exact m.qd_fits
  one sc := by
    rw [← (hsent.records sc).length_eq, length_records]
    exact hm.one sc
  fits sc v hv := by
    obtain ⟨r, hr, hw⟩ := forall₂_right (hsent.records sc) v hv
    have hkept := hm.kept sc r hr
    refine ⟨fun _ => hsent.low sc, fun hk => hkept.place (by rw [← hw.rrType, hk]), fun hk => ?_⟩
    rw [hw.rrType] at hk
    have hslot : slot (dnsMsgReset (zeroMsg base)) sc = zeroRr .null := by
      cases sc <;> rfl
    refine ⟨by rw [hslot]; rfl, ?_⟩
    rw [length_txt hw hk]
    exact txt_fits (hok.slots sc r hr).1 (hsized sc r (List.mem_of_mem_take hr)) hk
  clean := sent_room_fits hok hsent hm.room base

end Sent

section Same

variable {N : List Bytes → Prop} {K : RrKind → Prop} {m : DnsMsg} {st : NameStore}

theorem qd_same (hok : MsgOk N K m) {q q' : DnsQd Ptr} (hq : q ∈ questions m) {v : DnsQd Bytes}
    (hw : QdWritten m.store q v) (hs : QdShows st q' v) : SameQd m.store st q q' := by
  have hshow : st.str q'.qname = some v.qname := hs.qname
  refine ⟨?_, by rw [hshow]; rfl, ?_, hs.qtype.trans hw.qtype, hs.qclass.trans hw.qclass⟩
  · have hone : m.qdLen = 1 := by
      have hpos : 0 < (questions m).length := List.length_pos_of_mem hq
      rw [length_questions] at hpos
      have hfits : m.qdLen ≤ 1 := m.qd_fits
      omega
    rw [questions, hone] at hq
    obtain rfl := List.mem_singleton.mp hq
    obtain ⟨str, -, -, -, hstr⟩ := (hok.qd hone).str
    rw [hstr]
    rfl
  · rw [← hw.same, textOf, hshow]
    rfl

theorem rr_same {r r' : DnsRr Ptr} {v : RrView} (hw : WrittenView m.store r v)
    (hs : RrShows st r' v) (hthere : Present m.store r)
    (hopt : rrKind r.rrType = .opt → PlainOpt r) :
    SameRr m.store st r r' := by
  obtain ⟨hback, htext⟩ := shows_text hs
  refine ⟨hthere, hback, ?_⟩
  rw [htext]
  exact (canon_written hw).mpr hopt

theorem plain_same {r r' : DnsRr Ptr} {v : RrView} (hw : WrittenView m.store r v)
    (hs : RrShows st r' v) (h : SameRr m.store st r r') : rrKind r.rrType = .opt → PlainOpt r := by
  have htext := h.text
  rw [(shows_text hs).2] at htext
  exact (canon_written hw).mp htext

theorem forall₂_join {α β γ : Type} {P : α → β → Prop} {Q : γ → β → Prop} {as : List α}
    {bs : List β} {cs : List γ} (h : List.Forall₂ P as bs) (h' : List.Forall₂ Q cs bs) :
    List.Forall₂ (fun a c => ∃ b, P a b ∧ Q c b) as cs := by
  induction h generalizing cs with
  | nil =>
    cases h'
    exact .nil
  | @cons a b as bs hab _ ih =>
    cases h' with
    | cons hcb hrest => exact .cons ⟨b, hab, hcb⟩ (ih hrest)

end Same

section Message

variable {N : List Bytes → Prop} {K : RrKind → Prop} {m : DnsMsg} {pkt : Bytes}
  {qs : List (DnsQd Bytes)} {vs : Sect → List RrView} {fin : Sect → ℕ} (hok : MsgOk N K m)
  (hsent : Sent m pkt qs vs fin) (base : ℕ)

include hok hsent

/-- A small message comes back. -/
theorem small_back (hsized : Sized m) (hm : Small m) : ComesBack m pkt base := by
  obtain ⟨t, hrun, hhdr, hquests, hrecords⟩ := loaded_shows (encodable_zero base).sized
    hsent.header.1 (sent_loadable hok hsent hsized hm base)
  refine ⟨t, hrun, ?_⟩
  constructor
  case id => rw [hhdr, hsent.header.2, syncHdr]
  case flags => rw [hhdr, hsent.header.2, syncHdr]
  case quests =>
    have hall := (List.forall₂_and_left _ _).mpr ⟨fun q hq => hq, hsent.quests⟩
    refine (forall₂_join hall hquests).imp fun q q' h => ?_
    obtain ⟨v, ⟨hq, hw⟩, hs⟩ := h
    exact qd_same hok hq hw hs
  case records =>
    intro sc
    have hall := (List.forall₂_and_left _ _).mpr ⟨hm.kept sc, hsent.records sc⟩
    refine (forall₂_join hall (hrecords sc)).imp fun r r' h => ?_
    obtain ⟨v, ⟨hk, hw⟩, hs⟩ := h
    exact rr_same hw hs hk.there hk.opt

omit hok hsent in
theorem back_few (h : ComesBack m pkt base) (sc : Sect) : (m.sect sc).count ≤ 1 := by
  obtain ⟨t, hrun, hsame⟩ := h
  rw [← length_records, (hsame.records sc).length_eq, length_records]
  exact decoded_few hrun sc

/-- A message whose records are written part by part comes back only if it is small. -/
theorem back_small (hparts : ∀ sc, ∀ r ∈ records m sc, Partwise m.store r)
    (h : ComesBack m pkt base) : Small m := by
  obtain ⟨t, hrun, hsame⟩ := h
  obtain ⟨u0, u1, u2, hruns⟩ := decode_runs hsent.header.1 hrun
  have hhdr := hruns.sameHdr
  have hqd : t.msg.qdLen = qs.length := by
    rw [← length_questions, ← hsame.quests.length_eq, hsent.quests.length_eq]
  have hcount (sc : Sect) : (t.msg.sect sc).count = (vs sc).length := by
    rw [← length_records, ← (hsame.records sc).length_eq, (hsent.records sc).length_eq]
  have hloadable : Loadable (zeroMsg base) pkt qs vs fin := by
    refine known_loadable (encodable_zero base).sized hsent.header.1
      (kept_tells (encodable_zero base).sized pkt (fun sc => by cases sc <;> rfl)) hrun
      hsent.entries ?_ ?_ hqd ?_ ?_
    · rw [hqd, hhdr, sent_quests hsent]
    · intro sc
      rw [hcount, hhdr, sent_counts hsent]
    · intro q hq
      obtain ⟨p, -, hw⟩ := forall₂_right hsent.quests q hq
      exact hw.storable.2
    · intro sc
      have hall := (List.forall₂_and_left _ _).mpr ⟨hok.slots sc, hsent.records sc⟩
      refine (forall₂_join (hsame.records sc).flip hall.flip).imp fun r' v h => ?_
      obtain ⟨r, hrr, hslot, hw⟩ := h
      refine ⟨fun p hp hnull => ?_, fun x hx => (written_strs hw hslot.1 x hx).2⟩
      have hback := hrr.back p (List.mem_cons_of_mem _ hp)
      rw [hnull] at hback
      cases hback
  obtain ⟨t', hrun', -, -, hshows⟩ := loaded_shows (encodable_zero base).sized hsent.header.1
    hloadable
  rw [hrun] at hrun'
  cases hrun'
  constructor
  case one => exact back_few base ⟨t, hrun, hsame⟩
  case kept =>
    intro sc
    have hfits := ((List.forall₂_and_left _ _).mpr
      ⟨hloadable.fits sc, (hsent.records sc).flip⟩).flip
    have hkept : List.Forall₂ (fun r _ => (Present m.store r ∧ (rrKind r.rrType = .opt → sc = .ar) ∧
        (rrKind r.rrType = .opt → PlainOpt r)) ∧ True) (records m sc) (records t.msg sc) := by
      refine (hsame.records sc).mp (fun r r' hrr h => ?_) (forall₂_join hfits (hshows sc))
      obtain ⟨v, ⟨hfit, hw⟩, hs⟩ := h
      exact ⟨⟨hrr.there, fun hk => hfit.place (by rw [WrittenView.rrType hw, hk]),
        plain_same hw hs hrr⟩, trivial⟩
    intro r hr
    obtain ⟨hthere, hplace, hopt⟩ := ((List.forall₂_and_left _ _).mp hkept).1 r hr
    exact ⟨hparts sc r hr, hthere, hplace, hopt⟩
  case room =>
    rw [← sent_room hsent, ← Nat.zero_add (storeSize _)]
    exact hloadable.clean.room

end Message

/-- A small message that the API built comes back from what is encoded for it. A message that
comes back has one record in each section at most, and is small where its records are
written part by part. -/
theorem round_trip_iff {m : DnsMsg} (hm : Built (fun _ => True) (fun _ => True) (· = 0) m)
    {buf : Bytes} {n : ℤ} {t : NameEncoder.DnsEnc} (henc : dnsMsgEncode m buf = .ok n t)
    (hn : 0 ≤ n) (base : ℕ) :
    (Small m → ComesBack m (t.pktBuf.take n.toNat) base) ∧
      (ComesBack m (t.pktBuf.take n.toNat) base → (∀ sc, (m.sect sc).count ≤ 1) ∧
        ((∀ sc, ∀ r ∈ records m sc, Partwise m.store r) → Small m)) := by
  obtain ⟨hok, -⟩ := hm.ok (.inr fun _ h => h)
  have hsent (hone : ∀ sc, (m.sect sc).count ≤ 1)
      (hparts : ∀ sc, ∀ r ∈ records m sc, Partwise m.store r) :
      ∃ qs vs fin, Sent m (t.pktBuf.take n.toNat) qs vs fin := by
    obtain ⟨q, rs, hlay⟩ := message_layout hok hparts
    obtain ⟨hg, hpkt⟩ := dnsMsgEncode_ok hlay.laid henc hn
    rw [hpkt]
    exact message_sent hok hlay hg hone
  constructor
  · intro hsmall
    obtain ⟨qs, vs, fin, hsent⟩ := hsent hsmall.one fun sc r hr => (hsmall.kept sc r hr).parts
    exact small_back hok hsent base (EncodedFrames.encodable_built hm).sized hsmall
  · intro hback
    have hone := back_few base hback
    refine ⟨hone, fun hparts => ?_⟩
    obtain ⟨qs, vs, fin, hsent⟩ := hsent hone hparts
    exact back_small hok hsent base hparts hback

/-- The response with one question and its address comes back. -/
theorem reply_comes_back : ∃ n t, dnsMsgEncode addressReply (List.replicate 600 0) = .ok n t ∧
    n = 37 ∧ ComesBack addressReply (t.pktBuf.take n.toNat) 0 := by
  have hrun : (dnsMsgEncode addressReply (List.replicate 600 0)).result.map (fun p => p.1) =
      some 37 := by decide +kernel
  obtain ⟨n, t, henc, rfl⟩ := Outcome.eq_ok hrun
  have hname : NameText (fun _ => True) [97, 46, 98] :=
    ⟨[[97], [98]], trivial, by simpa using
      ⟨⟨by decide, by decide, by decide⟩, ⟨by decide, by decide, by decide⟩⟩, by decide⟩
  have hbuilt : Built (fun _ => True) (fun _ => True) (· = 0) addressReply :=
    ((Built.zero 0).init 0x1234 0x8180).addQd _ 1 1 hname (by decide +kernel)
      |>.addRr 1 _ trivial hname (by simp [rdNames, rrKind]) (by decide +kernel)
  have haddr : ∀ sc, ∀ r ∈ records addressReply sc, r.rrType = 1 ∧
      ∀ p ∈ rrPtrs r, (addressReply.store.str p).isSome := by
    intro sc
    cases sc <;> decide +kernel
  have hsmall : Small addressReply := by
    refine ⟨fun sc => by cases sc <;> decide +kernel, fun sc r hr => ?_, by decide +kernel⟩
    obtain ⟨htype, hthere⟩ := haddr sc r hr
    have hk : rrKind r.rrType = .a := by rw [htype]; rfl
    have hnot : rrKind r.rrType ≠ .opt := by
      rw [hk]
      decide
    have hparts : Partwise addressReply.store r := by
      unfold Partwise
      rw [hk]
      trivial
    exact ⟨hparts, hthere, fun h => absurd h hnot, fun h => absurd h hnot⟩
  exact ⟨_, t, henc, rfl, (round_trip_iff hbuilt henc (by decide) 0).1 hsmall⟩

theorem owner_plain : (0 : UInt8) ∉ ([97] : Bytes) := by decide

def twoAnswers : DnsMsg :=
  let rr (last : UInt8) : DnsRr Str :=
    { zeroRr (none : Str) with
      name := some ⟨[97], owner_plain⟩
      rrType := 1
      rrClass := 1
      rdata := { zeroRdata none with a := toVector 4 [192, 0, 2, last] } }
  (dnsAddRr (dnsAddRr (zeroMsg 0) 1 (some (rr 1))).2 1 (some (rr 2))).2

theorem second_answer_lost : ¬ ∀ m, Built (fun _ => True) (fun _ => True) (· = 0) m →
    ∀ buf n t, dnsMsgEncode m buf = .ok n t → 0 ≤ n →
      ComesBack m (t.pktBuf.take n.toNat) 0 := by
  intro h
  have hrun : (dnsMsgEncode twoAnswers (List.replicate 600 0)).result.map (fun p => p.1) =
      some 45 := by decide +kernel
  obtain ⟨n, t, henc, rfl⟩ := Outcome.eq_ok hrun
  have hname : NameText (fun _ => True) [97] :=
    ⟨[[97]], trivial, by simpa using ⟨by decide, by decide, by decide⟩, rfl⟩
  have hbuilt : Built (fun _ => True) (fun _ => True) (· = 0) twoAnswers :=
    (Built.zero 0).addRr 1 _ trivial hname (by simp [rdNames, rrKind]) (by decide +kernel)
      |>.addRr 1 _ trivial hname (by simp [rdNames, rrKind]) (by decide +kernel)
  have hfew := back_few 0 (h _ hbuilt _ _ t henc (by decide)) .an
  have htwo : (twoAnswers.sect .an).count = 2 := by decide +kernel
  rw [htwo] at hfew
  exact absurd hfew (by decide)

end DnsPkt.RoundTrip
