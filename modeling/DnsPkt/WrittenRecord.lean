import DnsPkt.AcceptedRun
import DnsPkt.EncodedMessage
import DnsPkt.RecordView

/-!
# Written records on the wire

The bytes that the encoder writes for a record are a record on the wire: the
names read back up to case, the character strings and numbers exactly, and the
length field ends the RDATA where the next record starts. Two fields of an
`OPT` record are not those of the message.
-/

set_option autoImplicit false

namespace DnsPkt.WrittenRecord
open DnsPkt.Octets DnsPkt.Protocol DnsPkt.WireName DnsPkt.MessageStore DnsPkt.MessageSlots
open DnsPkt.NameCompression DnsPkt.PacketWriter DnsPkt.MessageBuild DnsPkt.MessageEncoder
open DnsPkt.EncodedMessage DnsPkt.RecordDecoder DnsPkt.MessageDecoder DnsPkt.RecordRun
open DnsPkt.RecordEntry DnsPkt.MessageRun DnsPkt.AcceptedRun DnsPkt.RecordView

theorem name_at {w : Writer} (h : w.Sound 12) (hlow : w.pkt.length ≤ 2^14) {ls : List Bytes}
    (hgood : ∀ l ∈ ls, GoodLabel l) (hj : depthOf (reuse w.tab ls) ≤ dnsMaxJmp+1) {pkt : Bytes}
    (hb : (w.name dnsMaxSuffix ls).pkt <+: pkt) :
    ∃ ls', SameName ls' ls ∧
      NameAt pkt w.pkt.length (dotted ls') (w.name dnsMaxSuffix ls).pkt.length := by
  obtain ⟨ls', hr, hs, he⟩ := written_name h hlow _ hgood hb
  exact ⟨ls', hs, _, ls', hr.mono (by decide) le_rfl, hj, he⟩

theorem slice_raw {w : Writer} {b pkt : Bytes} (h : (w.raw b).pkt <+: pkt) :
    slice pkt w.pkt.length b.length = b := by
  obtain ⟨c, rfl⟩ := h
  rw [Writer.raw, List.append_assoc]
  exact slice_at_end w.pkt b c

theorem toVector_toList {n : ℕ} (v : Vector UInt8 n) : toVector n v.toList = v := by
  apply Vector.ext
  intro i hi
  simp [toVector, List.getD_eq_getElem?_getD]

theorem strsAt_written {w : Writer} {strs : List Bytes} (hlen : ∀ s ∈ strs, s.length < 256)
    {pkt : Bytes} (hb : (parts dnsMaxSuffix w (strs.map fun s => .raw (charStr s))).pkt <+: pkt) :
    StrsAt pkt (parts dnsMaxSuffix w (strs.map fun s => .raw (charStr s))).pkt.length
      w.pkt.length strs := by
  induction strs generalizing w with
  | nil => rfl
  | cons s rest ih =>
    have hrest := ih (w := w.raw (charStr s)) (fun x hx => hlen x (by simp [hx])) hb
    have hgrow := parts_grow dnsMaxSuffix (w.raw (charStr s)) (rest.map fun s => .raw (charStr s))
    have hs := slice_raw (hgrow.trans hb)
    have hpos : (w.raw (charStr s)).pkt.length = w.pkt.length+1+s.length := by
      simp [Writer.raw, charStr]
      omega
    have hle : w.pkt.length+1+s.length ≤
        (parts dnsMaxSuffix w ((s :: rest).map fun s => .raw (charStr s))).pkt.length := by
      rw [← hpos]
      exact hgrow.length_le
    rw [hpos] at hrest
    have hbyte : ((slice pkt w.pkt.length 1).getD 0 0).toNat = s.length := by
      have h1 : slice pkt w.pkt.length 1 = [UInt8.ofNat s.length] := by
        have := congrArg (List.take 1) hs
        simp only [slice, List.take_take, charStr, List.length_cons] at this ⊢
        rw [Nat.min_eq_left (by omega)] at this
        simpa using this
      have := hlen s (by simp)
      rw [h1]
      simp
      omega
    have hstr : slice pkt (w.pkt.length+1) s.length = s := by
      have := congrArg (List.drop 1) hs
      simp only [slice, charStr, List.length_cons, List.drop_take, List.drop_drop] at this ⊢
      simpa using this
    refine ⟨?_, hrest⟩
    simp only [strAt, hbyte, hstr]
    exact if_neg (by omega)

/-- What becomes of a name: the text that stands for it on the wire. -/
def NameWritten (st : NameStore) (p : Ptr) (text : Bytes) : Prop :=
  ∃ ls ls', NameOf st p ls ∧ SameName ls' ls ∧ text = shown (dotted ls')

theorem mem_dotted {x : UInt8} {ls : List Bytes} (h : x ∈ dotted ls) :
    x = 46 ∨ ∃ l ∈ ls, x ∈ l := by
  induction ls with
  | nil => simp [dotted] at h
  | cons l rest ih =>
    cases rest with
    | nil => exact .inr ⟨l, by simp, h⟩
    | cons m rest =>
      rcases List.mem_append.mp h with h | h
      · exact .inr ⟨l, by simp, h⟩
      rcases List.mem_cons.mp h with h | h
      · exact .inl h
      obtain h | ⟨k, hk, hx⟩ := ih h
      · exact .inl h
      · exact .inr ⟨k, by simp [hk], hx⟩

theorem lower_zero {x : UInt8} (h : lower x = 0) : x = 0 := by
  unfold lower at h
  split at h
  · next hx =>
    have h1 := UInt8.le_iff_toNat_le.mp hx.1
    have h2 := UInt8.le_iff_toNat_le.mp hx.2
    have h3 := congrArg UInt8.toNat h
    have h65 : (65 : UInt8).toNat = 65 := rfl
    have h90 : (90 : UInt8).toNat = 90 := rfl
    have h32 : (32 : UInt8).toNat = 32 := rfl
    have h0 : (0 : UInt8).toNat = 0 := rfl
    rw [UInt8.toNat_add] at h3
    omega
  · exact h

/-- The text of a written name has no zero byte and is not longer than a name may be. -/
theorem NameWritten.storable {st : NameStore} {p : Ptr} {text : Bytes} (h : NameWritten st p text) :
    text.length ≤ dnsNameMaxstr ∧ (0 : UInt8) ∉ text := by
  obtain ⟨ls, ls', hn, hs, rfl⟩ := h
  have hfold : fold (dotted ls') = fold (dotted ls) := by
    rw [fold_dotted, fold_dotted, hs]
  have hlen := congrArg List.length hfold
  rw [length_fold, length_fold] at hlen
  have hle := hn.le
  have hclean : (0 : UInt8) ∉ dotted ls' := by
    intro h0
    have hf := List.mem_map_of_mem (f := lower) h0
    rw [← fold, hfold] at hf
    obtain ⟨x, hx, hlow⟩ := List.mem_map.mp hf
    obtain rfl := lower_zero hlow
    rcases mem_dotted hx with h | ⟨l, hl, hm⟩
    · exact absurd h (by decide)
    · exact (hn.labels l hl).no_nul hm
  unfold shown
  split
  · exact ⟨by decide, by decide⟩
  · exact ⟨by omega, hclean⟩

structure RdWritten (st : NameStore) (rr : DnsRr Ptr) (h : RrHdr) (v : RdView) : Prop where
  fields : if rrKind rr.rrType = .opt then v = optView h
    else RdFields (rrKind rr.rrType) rr.rdata v
  strs : ∃ ns ss, v.strs = ns ++ ss ∧
    List.Forall₂ (NameWritten st) (rdNames rr.rrType rr.rdata) ns ∧
    List.Forall₂ (StrOf st) (rdStrs rr.rrType rr.rdata) ss

theorem soaView_written (m n : Bytes) (r : Rdata Ptr) :
    soaView m n (soaBytes r) = .soa m n r.soaSerial r.soaRefresh r.soaRetry r.soaExpire
      r.soaMinTtl := by
  have h0 : slice (soaBytes r) 0 4 = encU32 r.soaSerial := rfl
  have h1 : slice (soaBytes r) 4 4 = encU32 r.soaRefresh := rfl
  have h2 : slice (soaBytes r) 8 4 = encU32 r.soaRetry := rfl
  have h3 : slice (soaBytes r) 12 4 = encU32 r.soaExpire := rfl
  have h4 : slice (soaBytes r) 16 4 = encU32 r.soaMinTtl := rfl
  simp only [soaView, h0, h1, h2, h3, h4, decU32_encU32]

section Record

variable {st : NameStore} {rr : DnsRr Ptr} {ps : List Part} {w : Writer} {pkt : Bytes}

theorem rdata_written (hps : RdParts st rr ps)
    (hstr : ∀ p ∈ rdStrs rr.rrType rr.rdata, ∀ s, StrOf st p s → s.length < 256)
    (hw : w.Sound 12) (hlow : (parts dnsMaxSuffix w ps).pkt.length ≤ 2^14)
    (hg : ∀ p ∈ ps, p.Good) (hsh : Shallow dnsMaxSuffix (dnsMaxJmp+1) w ps)
    (hb : (parts dnsMaxSuffix w ps).pkt <+: pkt) {h : RrHdr} (ht : h.rrType = rr.rrType) :
    ∃ v, RdataAt pkt h w.pkt.length (parts dnsMaxSuffix w ps).pkt.length v ∧
      RdWritten st rr h v := by
  have hle := (parts_grow dnsMaxSuffix w ps).length_le
  have hone {p : Ptr} {ls : List Bytes} (hn : NameOf st p ls) (hps : ps = [.name ls]) :
      ∃ text, NameAt pkt w.pkt.length text (parts dnsMaxSuffix w ps).pkt.length ∧
        NameWritten st p (shown text) := by
    subst hps
    obtain ⟨ls', hs, hat⟩ := name_at hw (hle.trans hlow) (hg (.name ls) (by simp)) hsh.1 hb
    exact ⟨_, hat, ls, ls', hn, hs, rfl⟩
  unfold RdParts at hps
  unfold RdataAt
  rw [ht]
  cases hk : rrKind rr.rrType with
  | a =>
    simp only [hk] at hps
    subst hps
    refine ⟨_, ⟨by simp [parts, part, Writer.raw], rfl⟩, ⟨?_, [], [], rfl, ?_, ?_⟩⟩
    · have := slice_raw (w := w) (b := rr.rdata.a.toList) hb
      rw [Vector.length_toList] at this
      simp [hk, RdFields, this, toVector_toList]
    · simp [rdNames, hk]
    · simp [rdStrs, hk]
  | aaaa =>
    simp only [hk] at hps
    subst hps
    refine ⟨_, ⟨by simp [parts, part, Writer.raw], rfl⟩, ⟨?_, [], [], rfl, ?_, ?_⟩⟩
    · have := slice_raw (w := w) (b := rr.rdata.aaaa.toList) hb
      rw [Vector.length_toList] at this
      simp [hk, RdFields, this, toVector_toList]
    · simp [rdNames, hk]
    · simp [rdStrs, hk]
  | opt => exact ⟨_, rfl, ⟨by simp [hk], [], [], rfl, by simp [rdNames, hk], by simp [rdStrs, hk]⟩⟩
  | any | other =>
    exact ⟨_, rfl, ⟨by simp [hk, RdFields], [], [], rfl, by simp [rdNames, hk],
      by simp [rdStrs, hk]⟩⟩
  | ns | cname | ptr =>
    simp only [hk] at hps
    obtain ⟨ls, hn, hps⟩ := hps
    obtain ⟨text, hat, hwr⟩ := hone hn hps
    exact ⟨_, ⟨text, hat, rfl⟩, ⟨by simp [hk, RdFields], [shown text], [], rfl,
      by simpa [rdNames, hk] using hwr, by simp [rdStrs, hk]⟩⟩
  | soa =>
    simp only [hk] at hps
    obtain ⟨ls, ls', hn, hn', rfl⟩ := hps
    have hb2 := parts_grow dnsMaxSuffix (parts dnsMaxSuffix w [.name ls, .name ls'])
      [.raw (soaBytes rr.rdata)]
    have hb1 := parts_grow dnsMaxSuffix (parts dnsMaxSuffix w [.name ls])
      [.name ls', .raw (soaBytes rr.rdata)]
    have hg1 := hg (.name ls) (by simp)
    obtain ⟨t1, hs1, hat1⟩ := name_at hw (hle.trans hlow) hg1 hsh.1 (hb1.trans hb)
    have hlow1 : (w.name dnsMaxSuffix ls).pkt.length ≤ 2^14 := hb1.length_le.trans hlow
    have hw1 : (w.name dnsMaxSuffix ls).Sound 12 :=
      sound_part hw (hle.trans hlow) (p := .name ls) hg1
    obtain ⟨t2, hs2, hat2⟩ := name_at hw1 hlow1 (hg (.name ls') (by simp)) hsh.2.1 (hb2.trans hb)
    have hraw := slice_raw (w := (w.name dnsMaxSuffix ls).name dnsMaxSuffix ls') hb
    refine ⟨_, ⟨_, _, _, _, hat1, hat2, ?_, rfl⟩, ⟨?_, [_, _], [], rfl, ?_, by simp [rdStrs, hk]⟩⟩
    · simp [parts, part, Writer.raw, soaBytes]
    · rw [show (soaBytes rr.rdata).length = 20 from rfl] at hraw
      simp [hk, RdFields, hraw, soaView_written]
    · simp only [rdNames, hk]
      exact .cons ⟨ls, t1, hn, hs1, rfl⟩ (.cons ⟨ls', t2, hn', hs2, rfl⟩ .nil)
  | hinfo =>
    simp only [hk] at hps
    obtain ⟨os, hcpu, hos, rfl⟩ := hps
    simp only [rdStrs, hk] at hstr
    have hsplit : parts dnsMaxSuffix w [.raw (charStr [] ++ charStr os)] =
        parts dnsMaxSuffix w ([[], os].map fun s => .raw (charStr s)) := by
      simp [parts, part, Writer.raw]
    have hlen : ∀ s ∈ [[], os], s.length < 256 := by
      have := hstr _ (by simp) os hos
      simpa using this
    rw [hsplit] at hb ⊢
    refine ⟨_, ⟨[], os, strsAt_written hlen hb, rfl⟩, ⟨by simp [hk, RdFields], [], [[], os], rfl,
      by simp [rdNames, hk], ?_⟩⟩
    simp only [rdStrs, hk]
    exact .cons hcpu (.cons hos .nil)
  | txt =>
    simp only [hk] at hps
    obtain ⟨strs, hstrs, rfl⟩ := hps
    simp only [rdStrs, hk] at hstr
    have hlen : ∀ s ∈ strs, s.length < 256 := by
      intro s hs
      obtain ⟨p, hp, hps⟩ := forall₂_right hstrs s hs
      exact hstr p hp s hps
    exact ⟨_, ⟨strs, strsAt_written hlen hb, rfl⟩, ⟨by simp [hk, RdFields], [], strs, rfl,
      by simp [rdNames, hk], by simpa [rdStrs, hk] using hstrs⟩⟩
  | mx | srv => simp only [hk] at hps

def wireClass (rr : DnsRr Ptr) : UInt16 :=
  if rrKind rr.rrType = .opt then rr.rdata.optUdpSize else rr.rrClass

def wireTtl (rr : DnsRr Ptr) : UInt32 :=
  if rrKind rr.rrType = .opt then
    decU32 (encU16 (UInt16.ofNat (optTtl rr.rdata)) ++ (encU32 rr.ttl).drop 2)
  else rr.ttl

def wireHdr (rr : DnsRr Ptr) (len : ℕ) : RrHdr :=
  ⟨rr.rrType, wireClass rr, wireTtl rr, UInt16.ofNat len⟩

theorem hdrAt_written {e len : ℕ}
    (h : slice pkt e 10 = fixedOf rr ++ encU16 (UInt16.ofNat len)) :
    hdrAt pkt e = wireHdr rr len := by
  have hlen : slice (fixedOf rr ++ encU16 (UInt16.ofNat len)) 8 2 = encU16 (UInt16.ofNat len) := by
    have := slice_at_end (fixedOf rr) (encU16 (UInt16.ofNat len)) []
    rwa [length_fixedOf, List.append_nil] at this
  have htype : slice (fixedOf rr ++ encU16 (UInt16.ofNat len)) 0 2 = encU16 rr.rrType := by
    unfold fixedOf
    split <;> rfl
  have hclass : slice (fixedOf rr ++ encU16 (UInt16.ofNat len)) 2 2 = encU16 (wireClass rr) := by
    unfold fixedOf wireClass
    split <;> rfl
  have httl : decU32 (slice (fixedOf rr ++ encU16 (UInt16.ofNat len)) 4 4) = wireTtl rr := by
    unfold fixedOf wireTtl
    split
    · rfl
    · exact decU32_encU32 rr.ttl
  simp only [hdrAt, wireHdr, h, hlen, htype, hclass, httl, decU16_encU16]

structure WrittenView (st : NameStore) (rr : DnsRr Ptr) (v : RrView) : Prop where
  name : NameWritten st rr.name v.name
  rrType : v.rrType = rr.rrType
  rrClass : v.rrClass = if rrKind rr.rrType = .opt then 0 else rr.rrClass
  ttl : v.ttl = wireTtl rr
  rdata : RdWritten st rr (wireHdr rr 0) v.rdata

/-- The bytes of a record are the record on the wire, and end where its
length field says. -/
theorem record_written {r : Record} (hr : WrittenAs st rr r)
    (hstr : ∀ p ∈ rdStrs rr.rrType rr.rdata, ∀ s, StrOf st p s → s.length < 256)
    (hw : w.Sound 12) (hlow : (record dnsMaxSuffix w r).pkt.length ≤ 2^14) (hg : r.Good)
    (hsh : Shallow dnsMaxSuffix (dnsMaxJmp+1) w
      (r.parts (encU16 (UInt16.ofNat (dataLen dnsMaxSuffix w r)))))
    (hb : (record dnsMaxSuffix w r).pkt <+: pkt) :
    ∃ v, RecordAt pkt w.pkt.length v (record dnsMaxSuffix w r).pkt.length ∧
      WrittenView st rr v := by
  obtain ⟨owner, fixed, data⟩ := r
  obtain ⟨hn, hps, rfl⟩ := hr
  obtain ⟨hj, hsh'⟩ := hsh
  have hle := (record_grow dnsMaxSuffix w ⟨owner, fixedOf rr, data⟩).length_le
  have hgrow := parts_grow dnsMaxSuffix (ahead dnsMaxSuffix w ⟨owner, fixedOf rr, data⟩
    (encU16 (UInt16.ofNat (dataLen dnsMaxSuffix w ⟨owner, fixedOf rr, data⟩)))) data
  have hahead := hgrow.trans hb
  obtain ⟨ls', hs, hat⟩ := name_at hw (hle.trans hlow) hg.1 hj
    ((List.prefix_append _ _).trans hahead)
  have hraw := slice_raw (w := w.name dnsMaxSuffix owner) hahead
  have hlen10 : (w.name dnsMaxSuffix owner).pkt.length+10 =
      (ahead dnsMaxSuffix w ⟨owner, fixedOf rr, data⟩
        (encU16 (UInt16.ofNat (dataLen dnsMaxSuffix w ⟨owner, fixedOf rr, data⟩)))).pkt.length := by
    simp [ahead, Writer.raw, length_fixedOf]
  dsimp only at hraw
  rw [List.length_append, length_fixedOf, length_encU16] at hraw
  have hhdr := hdrAt_written hraw
  have hrec := record_length dnsMaxSuffix w ⟨owner, fixedOf rr, data⟩
  have hend : (record dnsMaxSuffix w ⟨owner, fixedOf rr, data⟩).pkt.length =
      rdataEnd pkt (w.name dnsMaxSuffix owner).pkt.length := by
    rw [rdataEnd, hhdr, hlen10, hrec]
    simp only [wireHdr, UInt16.toNat_ofNat']
    omega
  have hw' := (hw.name dnsMaxSuffix hg.1 (Sound.near hw (hle.trans hlow) owner)).raw
    (fixedOf rr ++ encU16 (UInt16.ofNat (dataLen dnsMaxSuffix w ⟨owner, fixedOf rr, data⟩)))
  obtain ⟨rd, hrd, hwr⟩ := rdata_written hps hstr hw' hlow hg.2 hsh' hb
    (h := hdrAt pkt (w.name dnsMaxSuffix owner).pkt.length) (by rw [hhdr]; rfl)
  refine ⟨_, ⟨_, _, rd, hat, ?_, hend, hb.length_le, ?_, rfl⟩, ?_⟩
  · rw [hlen10]
    exact hahead.length_le
  · rw [hlen10]
    exact hrd
  · rw [hhdr] at hwr ⊢
    exact ⟨⟨owner, ls', hn, hs, rfl⟩, rfl,
      by simp only [wireView, wireHdr, wireClass]; split <;> rfl,
      rfl, ⟨hwr.fields, hwr.strs⟩⟩

end Record

theorem hdrOf_written {hdr : DnsHdr} {pkt : Bytes} (h : hdrBytes hdr <+: pkt) :
    hdrOf pkt = hdr := by
  obtain ⟨c, rfl⟩ := h
  have hs : slice (hdrBytes hdr ++ c) 0 dnsHdrLen = hdrBytes hdr :=
    slice_at_end [] (hdrBytes hdr) c
  have h0 : slice (hdrBytes hdr) 0 2 = encU16 hdr.id := rfl
  have h1 : slice (hdrBytes hdr) 2 2 = encU16 hdr.flags := rfl
  have h2 : slice (hdrBytes hdr) 4 2 = encU16 hdr.qdCount := rfl
  have h3 : slice (hdrBytes hdr) 6 2 = encU16 hdr.anCount := rfl
  have h4 : slice (hdrBytes hdr) 8 2 = encU16 hdr.nsCount := rfl
  have h5 : slice (hdrBytes hdr) 10 2 = encU16 hdr.arCount := rfl
  simp only [hdrOf, dnsHdrDecode, hs, h0, h1, h2, h3, h4, h5, decU16_encU16]

theorem qdAt_written {pkt : Bytes} {e : ℕ} {a b : UInt16}
    (h : slice pkt e 4 = encU16 a ++ encU16 b) : qdAt pkt e = (a, b) := by
  have h0 : slice (encU16 a ++ encU16 b) 0 2 = encU16 a := rfl
  have h1 : slice (encU16 a ++ encU16 b) 2 2 = encU16 b := rfl
  simp only [qdAt, h, h0, h1, decU16_encU16]

/-- The question of a message on the wire. -/
theorem question_written {m : DnsMsg} {q : List Part} (hq : QuestParts m q) (hone : m.qdLen = 1)
    {w : Writer} (hw : w.Sound 12) (hlow : (parts dnsMaxSuffix w q).pkt.length ≤ 2^14)
    (hg : ∀ p ∈ q, p.Good) (hsh : Shallow dnsMaxSuffix (dnsMaxJmp+1) w q) {pkt : Bytes}
    (hb : (parts dnsMaxSuffix w q).pkt <+: pkt) :
    ∃ ls ls', NameOf m.store m.qd.qname ls ∧ SameName ls' ls ∧
      QuestionAt pkt w.pkt.length ⟨dotted ls', m.qd.qtype, m.qd.qclass⟩
        (parts dnsMaxSuffix w q).pkt.length := by
  rw [QuestParts, if_pos hone] at hq
  obtain ⟨ls, hn, rfl⟩ := hq
  have hle := (parts_grow dnsMaxSuffix w
    [.name ls, .raw (encU16 m.qd.qtype ++ encU16 m.qd.qclass)]).length_le
  have hgrow := parts_grow dnsMaxSuffix (w.name dnsMaxSuffix ls)
    [.raw (encU16 m.qd.qtype ++ encU16 m.qd.qclass)]
  obtain ⟨ls', hs, hat⟩ := name_at hw (hle.trans hlow) (hg (.name ls) (by simp)) hsh.1
    (hgrow.trans hb)
  have hraw := slice_raw (w := w.name dnsMaxSuffix ls) hb
  exact ⟨ls, ls', hn, hs, _, hat, by simp [parts, part, Writer.raw], hb.length_le,
    (qdAt_written hraw).symm⟩

end DnsPkt.WrittenRecord
