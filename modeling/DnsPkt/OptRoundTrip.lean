import DnsPkt.LoadedRecord
import DnsPkt.WrittenRecord

/-!
# EDNS records there and back

The fields of an `OPT` record are packed into a TTL of 32 bits of which only
the low half is written, and to the place of the high half. What is read back
is the packed value exactly when both halves agree with the half that was left
from the generic TTL.
-/

set_option autoImplicit false

namespace DnsPkt.OptRoundTrip
open DnsPkt.CheckedRun DnsPkt.CheckedRun.Run DnsPkt.Octets DnsPkt.Protocol DnsPkt.MessageStore
open DnsPkt.MessageSlots DnsPkt.NameCompression DnsPkt.PacketWriter DnsPkt.NameEncoder
open DnsPkt.MessageEncoder DnsPkt.EncodedMessage DnsPkt.RecordDecoder DnsPkt.MessageDecoder
open DnsPkt.MessageBuild DnsPkt.RecordView DnsPkt.WrittenRecord DnsPkt.LoadedRecord

structure SameOpt (r r' : Rdata Ptr) : Prop where
  udpSize : r'.optUdpSize = r.optUdpSize
  extRcode : r'.optExtRcode = r.optExtRcode
  ednsVer : r'.optEdnsVer = r.optEdnsVer
  doBit : r'.optDoBit = r.optDoBit
  zBits : r'.optZBits = r.optZBits

/-- The flag word of an `OPT` record: the low half of its packed TTL. -/
def flagHalf (r : Rdata Ptr) : ℕ := r.optDoBit.toNat*2^15+r.optZBits.toNat

/-- The high half of the packed TTL and the low half of the generic TTL are both the
flag word. -/
def HalvesAgree (rr : DnsRr Ptr) : Prop :=
  rr.rdata.optExtRcode.toNat*2^8+rr.rdata.optEdnsVer.toNat = flagHalf rr.rdata ∧
    rr.ttl.toNat % 2^16 = flagHalf rr.rdata

instance (rr : DnsRr Ptr) : Decidable (HalvesAgree rr) := inferInstanceAs (Decidable (_ ∧ _))

theorem flagHalf_lt (r : Rdata Ptr) : flagHalf r < 2^16 := by
  have hz := r.optZBits.isLt
  have hb : r.optDoBit.toNat ≤ 1 := Bool.toNat_le _
  simp only [flagHalf]
  omega

theorem wireTtl_opt {rr : DnsRr Ptr} (hk : rrKind rr.rrType = .opt) :
    (wireTtl rr).toNat = flagHalf rr.rdata*2^16+rr.ttl.toNat % 2^16 := by
  have hlt := flagHalf_lt rr.rdata
  have hval : (UInt16.ofNat (optTtl rr.rdata)).toNat = flagHalf rr.rdata := by
    rw [UInt16.toNat_ofNat', optTtl]
    simp only [flagHalf] at hlt ⊢
    omega
  have hdec : wireTtl rr = UInt32.ofNat
      ((flagHalf rr.rdata / 256 % 256)*2^24+(flagHalf rr.rdata % 256)*2^16+
        (rr.ttl.toNat / 2^8 % 256)*2^8+rr.ttl.toNat % 256) := by
    rw [wireTtl, if_pos hk]
    simp only [encU16, encU32, hval, List.drop_succ_cons, List.drop_zero, List.cons_append,
      List.nil_append, decU32, List.getD_cons_zero, List.getD_cons_succ, UInt8.toNat_ofNat']
  rw [hdec, UInt32.toNat_ofNat']
  omega

/-- The slot that shows the written record has its fields exactly when the halves agree. -/
theorem sameOpt_iff {rr : DnsRr Ptr} (hk : rrKind rr.rrType = .opt) {r : Rdata Ptr}
    (h : optView (wireHdr rr 0) =
      .opt r.optUdpSize r.optExtRcode r.optEdnsVer r.optDoBit r.optZBits) :
    SameOpt rr.rdata r ↔ HalvesAgree rr := by
  have httl := wireTtl_opt hk
  have hlt := flagHalf_lt rr.rdata
  have hz := rr.rdata.optZBits.isLt
  have he := rr.rdata.optExtRcode.toNat_lt
  have hv := rr.rdata.optEdnsVer.toNat_lt
  rw [optView] at h
  obtain ⟨h1, h2, h3, h4, h5⟩ := RdView.opt.inj h
  have hudp : r.optUdpSize = rr.rdata.optUdpSize := by
    rw [← h1]
    exact if_pos hk
  have hext : r.optExtRcode.toNat = flagHalf rr.rdata / 256 := by
    rw [← h2, optExtRcode, UInt8.toNat_ofNat', wireHdr, httl]
    omega
  have hver : r.optEdnsVer.toNat = flagHalf rr.rdata % 256 := by
    rw [← h3, optVersion, UInt8.toNat_ofNat', wireHdr, httl]
    omega
  have hdo : r.optDoBit.toNat = rr.ttl.toNat / 2^15 % 2 := by
    rw [← h4, optDoBit, wireHdr, httl,
      show (flagHalf rr.rdata*2^16+rr.ttl.toNat % 2^16) / 2^15 % 2 =
        rr.ttl.toNat / 2^15 % 2 by omega]
    rcases Nat.mod_two_eq_zero_or_one (rr.ttl.toNat / 2^15) with h | h <;> rw [h] <;> rfl
  have hzb : r.optZBits.toNat = rr.ttl.toNat % 2^15 := by
    rw [← h5, optZBits, BitVec.toNat_ofNat, wireHdr, httl]
    omega
  have hb : rr.rdata.optDoBit.toNat ≤ 1 := Bool.toNat_le _
  rw [HalvesAgree]
  constructor
  · intro hs
    rw [hs.extRcode] at hext
    rw [hs.ednsVer] at hver
    rw [hs.doBit] at hdo
    rw [hs.zBits] at hzb
    simp only [flagHalf] at *
    omega
  · rintro ⟨ha, hb'⟩
    simp only [flagHalf] at *
    refine ⟨hudp, UInt8.toNat_inj.mp (by omega), UInt8.toNat_inj.mp (by omega), ?_,
      BitVec.eq_of_toNat_eq (by omega)⟩
    have hbit : r.optDoBit.toNat = rr.rdata.optDoBit.toNat := by omega
    revert hbit
    cases r.optDoBit <;> cases rr.rdata.optDoBit <;> decide

/-- An encoder behind a header, whose known suffixes a decoder can follow, with
room below the reach of pointers. -/
structure Behind (w : Writer) (s : DnsEnc) : Prop extends EncAt w s where
  sound : w.Sound 12
  depth : Below (dnsMaxJmp+1) w
  low : w.pkt.length+(dnsNameMaxlen+10) ≤ 2^14

theorem behind_header {m : DnsMsg} {buf : Bytes} {s : DnsEnc} {u : Unit}
    (h : encodeHdr m (initEnc buf) = .ok u s) : Behind ⟨hdrBytes (syncHdr m), []⟩ s where
  toEncAt := dnsEncMem_ok (encAt_init buf) (b := hdrBytes (syncHdr m)) h
  sound := ⟨le_rfl, by simp⟩
  depth := by
    intro e he
    simp at he
  low := by
    rw [show (hdrBytes (syncHdr m)).length = 12 from rfl]
    decide

/-- A decoder before a record, with a free slot and room for the owner of an `OPT` record,
which is stored twice. -/
structure Before (w : Writer) (d : DecState) : Prop where
  offset : d.dec.offset = w.pkt.length
  free : (d.msg.sect .ar).count < dnsMaxRr
  sized : (slot d.msg .ar).rdata.txtStr.length = dnsMaxTxt
  room : d.msg.store.len+2*(dnsNameMaxstr+1) ≤ dnsMaxPdusize

theorem opt_written {w : Writer} {s t : DnsEnc} {st : NameStore} {rr : DnsRr Ptr}
    {ls : List Bytes} {u : Unit} (hw : Behind w s) (hk : rrKind rr.rrType = .opt)
    (hn : NameOf st rr.name ls) (henc : dnsRrEncode st rr s = .ok u t) :
    ∃ v fin, RecordAt (t.pktBuf.take t.pktLen) w.pkt.length v fin ∧ WrittenView st rr v := by
  have hps : RdParts st rr [] := by
    unfold RdParts
    rw [hk]
  obtain ⟨hg, he⟩ := dnsRrEncode_ok hn hps hw.toEncAt henc
  have hlen := record_length_le dnsMaxSuffix w hg
  have hpkt : t.pktBuf.take t.pktLen = (record dnsMaxSuffix w ⟨ls, fixedOf rr, []⟩).pkt := by
    rw [he.len]
    exact he.pkt
  have hnone : rdStrs rr.rrType rr.rdata = [] := by
    unfold rdStrs
    rw [hk]
  have hlow : (record dnsMaxSuffix w ⟨ls, fixedOf rr, []⟩).pkt.length ≤ 2^14 := by
    have hname : nameSize ls ≤ 255 := by
      have : (dotted ls).length ≤ 253 := hn.le
      unfold nameSize
      split <;> omega
    have : w.pkt.length+(255+10) ≤ 2^14 := hw.low
    simp only [Record.size, length_fixedOf, List.map_nil, List.sum_nil] at hlen
    omega
  obtain ⟨v, hat, hview⟩ := record_written ⟨hn, hps, rfl⟩ (by simp [hnone]) hw.sound hlow hg
    ⟨hw.depth.depthOf_le ls, trivial⟩ (List.prefix_refl _)
  rw [hpkt]
  exact ⟨v, _, hat, hview⟩

/-- What is encoded for an `OPT` record behind a header is decoded into a free slot. -/
theorem opt_decoded {w : Writer} {s t : DnsEnc} {st : NameStore} {rr : DnsRr Ptr}
    {ls : List Bytes} {d : DecState} (hk : rrKind rr.rrType = .opt) (hn : NameOf st rr.name ls)
    (hw : Behind w s) (henc : dnsRrEncode st rr s = .ok () t) (hd : Before w d) :
    ∃ rc u r, dnsRrDecode (loadEnv (t.pktBuf.take t.pktLen)) .ar d = .ok rc u ∧
      records u.msg .ar = records d.msg .ar ++ [r] ∧
      (SameOpt rr.rdata r.rdata ↔ HalvesAgree rr) := by
  obtain ⟨v, fin, hat, hview⟩ := opt_written hw hk hn henc
  have hkv : rrKind v.rrType = .opt := by rw [hview.rrType, hk]
  have hrd : v.rdata = optView (wireHdr rr 0) := by
    have := hview.rdata.fields
    rwa [if_pos hk] at this
  have hstrs : loadedStrs v = [v.name, v.name] := by
    rw [loadedStrs, if_pos hkv, hrd, optView]
    rfl
  obtain ⟨hshort, hplain⟩ := hview.name.storable
  have hroom := hd.room
  have hclean : Clean d.msg.store (loadedStrs v) := by
    rw [hstrs]
    refine ⟨by simpa using hshort, ?_, by simpa using hplain⟩
    simp only [storeSize, List.map_cons, List.map_nil, List.sum_cons, List.sum_nil]
    omega
  have hfits : Fits .ar (slot d.msg .ar) v fin :=
    ⟨fun h => absurd hkv h, fun _ => rfl, fun h => absurd (h.symm.trans hkv) (by decide)⟩
  rw [← hd.offset] at hat
  obtain ⟨rc, u, st', r, hrun, hmsg, -, -, -, hshow⟩ :=
    record_loaded hat hd.free hd.sized hfits hclean
  have hr := hshow st' (Later.refl st')
  have hkr : rrKind r.rrType = .opt := by rw [hr.rrType, hkv]
  refine ⟨rc, u, r, (call_ok _ _ _ _).mpr (.inl hrun), ?_, sameOpt_iff hk ?_⟩
  · rw [hmsg, countUp_records _ _ hd.free]
  · have := hr.fields
    rw [hkr] at this
    rw [← hrd]
    exact this

/-- The record that is decoded from a packet has the fields of the encoded one. -/
def OptKept (pkt : Bytes) (rr : DnsRr Ptr) (d : DecState) : Prop :=
  ∃ rc u r, dnsRrDecode (loadEnv pkt) .ar d = .ok rc u ∧
    records u.msg .ar = records d.msg .ar ++ [r] ∧ SameOpt rr.rdata r.rdata

/-- Encoding an `OPT` record and decoding the result gives back its five fields
exactly when the halves of its packed TTL agree. -/
theorem opt_round_trip_iff {w : Writer} {s t : DnsEnc} {st : NameStore} {rr : DnsRr Ptr}
    {ls : List Bytes} {d : DecState} (hk : rrKind rr.rrType = .opt) (hn : NameOf st rr.name ls)
    (hw : Behind w s) (henc : dnsRrEncode st rr s = .ok () t) (hd : Before w d) :
    OptKept (t.pktBuf.take t.pktLen) rr d ↔ HalvesAgree rr := by
  obtain ⟨rc, u, r, hrun, hmem, hiff⟩ := opt_decoded hk hn hw henc hd
  constructor
  · rintro ⟨rc', u', r', hrun', hmem', hsame⟩
    rw [hrun] at hrun'
    cases hrun'
    rw [hmem] at hmem'
    obtain rfl := List.singleton_inj.mp (List.append_cancel_left hmem')
    exact hiff.mp hsame
  · intro h
    exact ⟨rc, u, r, hrun, hmem, hiff.mpr h⟩

/-- An `OPT` record of the root with a UDP size and the DO bit. -/
def ednsRr (doBit : Bool) : DnsRr Ptr :=
  ⟨.null, 41, 0, 0, 0, { zeroRdata .null with optUdpSize := 4096, optDoBit := doBit }⟩

def behindHeader : DecState := ⟨{ initDec with offset := 12 }, zeroMsg 0⟩

theorem behindHeader_before : Before ⟨hdrBytes (syncHdr (zeroMsg 0)), []⟩ behindHeader :=
  ⟨rfl, by decide, rfl, by decide⟩

def encodeEdns (doBit : Bool) : Enc Unit := do
  encodeHdr (zeroMsg 0)
  dnsRrEncode zeroStore (ednsRr doBit)

/-- Without the DO bit the record is read back as it was. -/
theorem plain_edns_kept : ∃ t, encodeEdns false (initEnc (List.replicate 300 0)) = .ok () t ∧
    (OptKept (t.pktBuf.take t.pktLen) (ednsRr false) behindHeader ↔
      HalvesAgree (ednsRr false)) := by
  have hrun : (encodeEdns false (initEnc (List.replicate 300 0))).result.map (fun p => p.2.pktLen) =
      some 23 := by
    decide +kernel
  obtain ⟨⟨⟩, t, h, -⟩ := Outcome.eq_ok hrun
  have h' := h
  rw [encodeEdns] at h'
  obtain ⟨_, s, hs, ht⟩ := (bind_ok _ _ _ _ _).mp h'
  have hk : rrKind (ednsRr false).rrType = .opt := rfl
  have hn : NameOf zeroStore (ednsRr false).name [] :=
    ⟨rfl, by simp [ednsRr], by simp, Nat.zero_le _⟩
  exact ⟨t, h, opt_round_trip_iff hk hn (behind_header hs) ht behindHeader_before⟩

/-- The DO bit is written to the place of the extended RCODE. -/
theorem do_bit_lost : ∃ t, encodeEdns true (initEnc (List.replicate 300 0)) = .ok () t ∧
    ¬ OptKept (t.pktBuf.take t.pktLen) (ednsRr true) behindHeader := by
  have hrun : (encodeEdns true (initEnc (List.replicate 300 0))).result.map (fun p =>
      (dnsRrDecode (loadEnv (p.2.pktBuf.take p.2.pktLen)) .ar behindHeader).result.map fun q =>
        (records q.2.msg .ar).map fun r => r.rdata.optDoBit) = some (some [false]) := by
    decide +kernel
  obtain ⟨⟨⟩, t, h, hdec⟩ := Outcome.eq_ok hrun
  obtain ⟨rc, u, hu, hbits⟩ := Outcome.eq_ok hdec
  refine ⟨t, h, ?_⟩
  rintro ⟨rc', u', r, hu', hmem, hsame⟩
  rw [hu] at hu'
  cases hu'
  have hmem' : records u.msg .ar = [r] := hmem
  rw [hmem'] at hbits
  have hbit : r.rdata.optDoBit = true := hsame.doBit
  rw [List.map_singleton, hbit] at hbits
  cases hbits

end DnsPkt.OptRoundTrip
