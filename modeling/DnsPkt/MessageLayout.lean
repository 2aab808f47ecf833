import DnsPkt.EncodedMessage
import Mathlib.Data.List.Forall2

/-!
# The layout of a built message

Every message that the API built, with records that are written part by part,
has a layout in the sense of `EncodedMessage`. Its names are those that were
added. The strings of a message share one store, so its packet stays far below
2^14 bytes and no compression pointer is cut.
-/

set_option autoImplicit false

namespace DnsPkt.MessageLayout
open DnsPkt.Octets DnsPkt.Protocol DnsPkt.MessageStore DnsPkt.MessageSlots DnsPkt.NameCompression
open DnsPkt.PacketWriter DnsPkt.MessageBuild DnsPkt.MessageEncoder DnsPkt.EncodedMessage

def Part.Names (Q : List Bytes → Prop) : Part → Prop
  | .raw _ => True
  | .name ls => Q ls

def Record.Names (Q : List Bytes → Prop) (r : Record) : Prop :=
  Q r.owner ∧ ∀ p ∈ r.data, Part.Names Q p

variable {N : List Bytes → Prop} {st : NameStore}

theorem nameOf_shown {p : Ptr} (h : Shown (NameText N) st p) :
    ∃ ls, N ls ∧ NameOf st p ls ∧ nameSize ls ≤ 2*strWeight st p := by
  obtain ⟨off, rfl, -⟩ := h.choose_spec.2.2.2
  obtain ⟨str, ⟨ls, hN, hl, rfl⟩, -, hle, hs⟩ := h.str
  refine ⟨ls, hN, ⟨by rw [hs]; rfl, by simp, hl, hle⟩, ?_⟩
  simp only [strWeight, hs, nameSize]
  split_ifs <;> omega

/-- A name pointer of a record, which may be null. -/
theorem nameOf_ptr {p : Ptr} (h : p = .null ∨ Shown (NameText N) st p) :
    ∃ ls, (N ls ∨ ls = []) ∧ NameOf st p ls ∧ nameSize ls ≤ 2*strWeight st p+1 := by
  rcases h with rfl | h
  · exact ⟨[], .inr rfl, ⟨rfl, by simp, by simp, by simp [dotted]⟩, by simp [nameSize]⟩
  · obtain ⟨ls, hN, hn, hsize⟩ := nameOf_shown h
    exact ⟨ls, .inl hN, hn, by omega⟩

theorem strOf_ptr {P : Bytes → Prop} {p : Ptr} (h : p = .null ∨ Shown P st p) :
    ∃ str, StrOf st p str ∧ str.length ≤ strWeight st p := by
  rcases h with rfl | h
  · exact ⟨[], ⟨by simp, rfl⟩, by simp⟩
  · obtain ⟨off, rfl, -⟩ := h.choose_spec.2.2.2
    obtain ⟨str, -, -, -, hs⟩ := h.str
    refine ⟨str, ⟨by simp, by rw [hs]; rfl⟩, ?_⟩
    simp only [strWeight, hs]
    omega

/-- Records that are written part by part. -/
def Partwise (st : NameStore) (rr : DnsRr Ptr) : Prop :=
  match rrKind rr.rrType with
  | .mx | .srv => False
  | .hinfo => st.str rr.rdata.hinfoCpuStr = some []
  | .txt => ∀ p ∈ txtPtrs rr.rdata, p ≠ .null
  | _ => True

structure RecordLayout (N : List Bytes → Prop) (st : NameStore) (rr : DnsRr Ptr) (r : Record) :
    Prop where
  written : WrittenAs st rr r
  names : Record.Names (fun ls => N ls ∨ ls = []) r
  owner : N r.owner
  size : r.size ≤ 2*weight st (rrPtrs rr)+32

theorem strs_shown {ps : List Ptr} (h : ∀ p ∈ ps, Shown (fun _ => True) st p) :
    ∃ strs : List Bytes, List.Forall₂ (StrOf st) ps strs ∧
      ((strs.map fun str => Part.raw (charStr str)).map Part.size).sum ≤ weight st ps := by
  induction ps with
  | nil => exact ⟨[], .nil, by simp⟩
  | cons p rest ih =>
    obtain ⟨strs, hs, hsum⟩ := ih fun q hq => h q (by simp [hq])
    have hp := h p (by simp)
    obtain ⟨off, rfl, -⟩ := hp.choose_spec.2.2.2
    obtain ⟨str, -, -, -, hstr⟩ := hp.str
    refine ⟨str :: strs, .cons ⟨by simp, by rw [hstr]; rfl⟩ hs, ?_⟩
    simp only [List.map_cons, List.sum_cons, weight, strWeight, hstr, Part.size, charStr,
      List.length_cons] at hsum ⊢
    omega

/-- The RDATA of a slot as parts, with the room its strings take. -/
theorem rdParts_of_slot {rr : DnsRr Ptr} (h : SlotOk N st rr) (hp : Partwise st rr) :
    ∃ ps, RdParts st rr ps ∧ (∀ p ∈ ps, Part.Names (fun ls => N ls ∨ ls = []) p) ∧
      (ps.map Part.size).sum ≤
        2*weight st (rdNames rr.rrType rr.rdata ++ rdStrs rr.rrType rr.rdata)+22 := by
  have hnames := h.names
  have hstrs := h.strs
  unfold Partwise at hp
  unfold RdParts
  simp only [rdNames, rdStrs] at hnames hstrs ⊢
  cases hk : rrKind rr.rrType with
  | a =>
    simp only [hk] at hnames hstrs ⊢
    exact ⟨_, rfl, by simp [Part.Names], by simp [Part.size]⟩
  | aaaa =>
    simp only [hk] at hnames hstrs ⊢
    exact ⟨_, rfl, by simp [Part.Names], by simp [Part.size]⟩
  | opt | any | other => exact ⟨[], rfl, by simp, by simp⟩
  | ns | cname | ptr =>
    simp only [hk] at hnames hstrs ⊢
    obtain ⟨ls, hN, hn, hsize⟩ := nameOf_ptr (hnames _ (List.mem_singleton_self _))
    refine ⟨_, ⟨ls, hn, rfl⟩, by simpa [Part.Names] using hN, ?_⟩
    simp only [Part.size, weight, List.map_cons, List.map_nil, List.sum_cons, List.sum_nil,
      List.append_nil]
    omega
  | soa =>
    simp only [hk] at hnames hstrs ⊢
    obtain ⟨ls, hN, hn, hsize⟩ := nameOf_ptr (hnames rr.rdata.soaMname (by simp))
    obtain ⟨ls', hN', hn', hsize'⟩ := nameOf_ptr (hnames rr.rdata.soaRname (by simp))
    refine ⟨_, ⟨ls, ls', hn, hn', rfl⟩, by simp [Part.Names, hN, hN'], ?_⟩
    simp only [Part.size, weight, List.map_cons, List.map_nil, List.sum_cons, List.sum_nil,
      List.append_nil, soaBytes, List.length_append, length_encU32]
    omega
  | hinfo =>
    simp only [hk] at hnames hstrs hp ⊢
    obtain ⟨os, hos, hsize⟩ := strOf_ptr (hstrs rr.rdata.hinfoOsStr (by simp))
    have hcpu : StrOf st rr.rdata.hinfoCpuStr [] := by
      refine ⟨?_, by rw [hp]; rfl⟩
      rintro hw
      rw [hw] at hp
      cases hp
    refine ⟨_, ⟨os, hcpu, hos, rfl⟩, by simp [Part.Names], ?_⟩
    simp only [Part.size, weight, List.map_cons, List.map_nil, List.sum_cons, List.sum_nil,
      List.nil_append, charStr, List.length_append, List.length_cons, List.length_nil]
    omega
  | txt =>
    simp only [hk] at hnames hstrs hp ⊢
    obtain ⟨strs, hs, hsum⟩ := strs_shown fun p hm => (hstrs p hm).resolve_left (hp p hm)
    refine ⟨_, ⟨strs, hs, rfl⟩, by simp [Part.Names], ?_⟩
    simp only [List.nil_append]
    omega
  | mx | srv => simp only [hk] at hp

theorem layout_of_slot {rr : DnsRr Ptr} (h : SlotOk N st rr) (hp : Partwise st rr) :
    ∃ r, RecordLayout N st rr r := by
  obtain ⟨ls, hN, hn, hsize⟩ := nameOf_shown h.owner
  obtain ⟨ps, hps, hnames, hsum⟩ := rdParts_of_slot h hp
  refine ⟨⟨ls, fixedOf rr, ps⟩, ⟨hn, hps, rfl⟩, ⟨.inl hN, hnames⟩, hN, ?_⟩
  simp only [Record.size, length_fixedOf, rrPtrs, weight, List.map_cons, List.sum_cons] at hsum ⊢
  omega

theorem exists_forall₂ {α β : Type} {P : α → β → Prop} {l : List α} (h : ∀ a ∈ l, ∃ b, P a b) :
    ∃ bs, List.Forall₂ P l bs := by
  induction l with
  | nil => exact ⟨[], .nil⟩
  | cons a rest ih =>
    obtain ⟨b, hb⟩ := h a (by simp)
    obtain ⟨bs, hbs⟩ := ih fun a ha => h a (by simp [ha])
    exact ⟨b :: bs, .cons hb hbs⟩

theorem records_size {rrs : List (DnsRr Ptr)} {rs : List Record}
    (h : List.Forall₂ (RecordLayout N st) rrs rs) :
    (rs.map Record.size).sum ≤
      2*((rrs.map fun rr => weight st (rrPtrs rr)).sum)+32*rrs.length := by
  induction h with
  | nil => simp
  | cons hr _ ih =>
    have := hr.size
    simp only [List.map_cons, List.sum_cons, List.length_cons]
    omega

structure QuestLayout (N : List Bytes → Prop) (m : DnsMsg) (q : List Part) : Prop where
  parts : QuestParts m q
  names : ∀ p ∈ q, Part.Names N p
  size : (q.map Part.size).sum ≤ 2*qdWeight m+4

structure MsgLayout (N : List Bytes → Prop) (m : DnsMsg) (q : List Part)
    (rs : Sect → List Record) : Prop where
  quest : QuestLayout N m q
  sects : ∀ sc, List.Forall₂ (RecordLayout N m.store) (MessageSlots.records m sc) (rs sc)

theorem MsgLayout.laid {m : DnsMsg} {q : List Part} {rs : Sect → List Record}
    (h : MsgLayout N m q rs) : Laid m q rs :=
  ⟨h.quest.parts, fun sc => (h.sects sc).imp fun _ _ hr => hr.written⟩

theorem quest_layout {K : RrKind → Prop} {m : DnsMsg} (h : MsgOk N K m) :
    ∃ q, QuestLayout N m q := by
  by_cases h1 : m.qdLen = 1
  · obtain ⟨ls, hN, hn, hsize⟩ := nameOf_shown (h.qd h1)
    refine ⟨[.name ls, .raw (encU16 m.qd.qtype ++ encU16 m.qd.qclass)], ?_, ?_, ?_⟩
    · rw [QuestParts, if_pos h1]
      exact ⟨ls, hn, rfl⟩
    · simpa [Part.Names] using hN
    · simp only [qdWeight, if_pos h1, List.map_cons, List.map_nil, List.sum_cons, List.sum_nil,
        Part.size, List.length_append, length_encU16]
      omega
  · refine ⟨[], ?_, by simp, by simp⟩
    rw [QuestParts, if_neg h1]

theorem message_layout {K : RrKind → Prop} {m : DnsMsg} (h : MsgOk N K m)
    (hp : ∀ sc, ∀ rr ∈ MessageSlots.records m sc, Partwise m.store rr) :
    ∃ q rs, MsgLayout N m q rs := by
  obtain ⟨q, hq⟩ := quest_layout h
  have hsect (sc : Sect) : ∃ rs, List.Forall₂ (RecordLayout N m.store)
      (MessageSlots.records m sc) rs :=
    exists_forall₂ fun rr hr => layout_of_slot (h.slots sc rr hr).1 (hp sc rr hr)
  choose rs hrs using hsect
  exact ⟨q, rs, hq, hrs⟩

/-- No message needs more than 8192 bytes. -/
theorem message_length_le {K : RrKind → Prop} {m : DnsMsg} (h : MsgOk N K m) {q : List Part}
    {rs : Sect → List Record} (hm : MsgLayout N m q rs) (hg : GoodLayout q rs) :
    (messageWriter (hdrBytes (syncHdr m)) q rs).pkt.length ≤ 8192 := by
  have hlen : (hdrBytes (syncHdr m)).length = 12 := rfl
  have hcount (sc : Sect) : (MessageSlots.records m sc).length ≤ 32 :=
    (List.length_take_le _ _).trans (m.sect sc).fits
  have hsize (sc : Sect) : ((rs sc).map Record.size).sum ≤ 2*sectWeight m sc+1024 := by
    have h1 := records_size (hm.sects sc)
    have h2 := hcount sc
    unfold sectWeight
    omega
  have hq := hm.quest.size
  have hroom := h.room
  have hfits : m.store.len ≤ 2048 := m.store.fits
  have h0 := parts_length_le dnsMaxSuffix ⟨hdrBytes (syncHdr m), []⟩ q hg.1
  have h1 := records_length_le dnsMaxSuffix (parts dnsMaxSuffix ⟨hdrBytes (syncHdr m), []⟩ q)
    (rs .an) (hg.2 .an)
  have h2 := records_length_le dnsMaxSuffix (PacketWriter.records dnsMaxSuffix
    (parts dnsMaxSuffix ⟨hdrBytes (syncHdr m), []⟩ q) (rs .an)) (rs .ns) (hg.2 .ns)
  have h3 := records_length_le dnsMaxSuffix (PacketWriter.records dnsMaxSuffix
    (PacketWriter.records dnsMaxSuffix (parts dnsMaxSuffix ⟨hdrBytes (syncHdr m), []⟩ q) (rs .an))
    (rs .ns)) (rs .ar) (hg.2 .ar)
  have han := hsize .an
  have hns := hsize .ns
  have har := hsize .ar
  dsimp only at h0
  simp only [messageWriter]
  omega

/-- Each writer goes on where the one before it stopped, and the last packet stays low. -/
structure Stages (q : List Part) (rs : Sect → List Record) (w0 w1 w2 w3 w4 : Writer) : Prop where
  front : w1 = parts dnsMaxSuffix w0 q
  an : w2 = PacketWriter.records dnsMaxSuffix w1 (rs .an)
  ns : w3 = PacketWriter.records dnsMaxSuffix w2 (rs .ns)
  ar : w4 = PacketWriter.records dnsMaxSuffix w3 (rs .ar)
  low : w4.pkt.length ≤ 2^14
  sound : w0.Sound 12
  good : GoodLayout q rs

theorem layout_stages {K : RrKind → Prop} {m : DnsMsg} (h : MsgOk N K m) {q : List Part}
    {rs : Sect → List Record} (hm : MsgLayout N m q rs) (hg : GoodLayout q rs) :
    ∃ w1 w2 w3, Stages q rs ⟨hdrBytes (syncHdr m), []⟩ w1 w2 w3
      (messageWriter (hdrBytes (syncHdr m)) q rs) :=
  ⟨_, _, _, rfl, rfl, rfl, rfl, (message_length_le h hm hg).trans (by decide),
    ⟨le_rfl, by simp⟩, hg⟩

section Stages

variable {q : List Part} {rs : Sect → List Record} {w0 w1 w2 w3 w4 : Writer}
  (h : Stages q rs w0 w1 w2 w3 w4)

include h

theorem Stages.grow3 : w3.pkt <+: w4.pkt := by
  rw [h.ar]
  exact records_grow _ _ _

theorem Stages.grow2 : w2.pkt <+: w4.pkt := by
  refine List.IsPrefix.trans ?_ h.grow3
  rw [h.ns]
  exact records_grow _ _ _

theorem Stages.grow1 : w1.pkt <+: w4.pkt := by
  refine List.IsPrefix.trans ?_ h.grow2
  rw [h.an]
  exact records_grow _ _ _

theorem Stages.grow0 : w0.pkt <+: w4.pkt := by
  refine List.IsPrefix.trans ?_ h.grow1
  rw [h.front]
  exact parts_grow _ _ _

theorem Stages.low1 : w1.pkt.length ≤ 2^14 := h.grow1.length_le.trans h.low

theorem Stages.low2 : w2.pkt.length ≤ 2^14 := h.grow2.length_le.trans h.low

theorem Stages.low3 : w3.pkt.length ≤ 2^14 := h.grow3.length_le.trans h.low

theorem Stages.sound1 : w1.Sound 12 := by
  have hlow := h.low1
  rw [h.front] at hlow ⊢
  exact sound_parts h.sound hlow h.good.1

theorem Stages.sound2 : w2.Sound 12 := by
  have hlow := h.low2
  rw [h.an] at hlow ⊢
  exact sound_records h.sound1 (h.good.2 .an) hlow

theorem Stages.sound3 : w3.Sound 12 := by
  have hlow := h.low3
  rw [h.ns] at hlow ⊢
  exact sound_records h.sound2 (h.good.2 .ns) hlow

end Stages

end DnsPkt.MessageLayout
