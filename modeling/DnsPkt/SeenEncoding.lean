import DnsPkt.AlikeMessages
import DnsPkt.MessageEncoder

/-!
# What the encoder sees of a message

The encoder reads the header, the questions and the records that the counts
cover, and follows their pointers. Where the strings stand in the store does
not matter: messages of which the same can be observed are encoded alike.
-/

set_option autoImplicit false

namespace DnsPkt.SeenEncoding
open DnsPkt.CheckedRun DnsPkt.CheckedRun.Run DnsPkt.Octets DnsPkt.Protocol
open DnsPkt.MessageStore DnsPkt.MessageSlots DnsPkt.MessageBuild DnsPkt.RecordView
open DnsPkt.NameEncoder DnsPkt.MessageEncoder DnsPkt.AlikeMessages

section Strings

variable {st st' : NameStore}

theorem strOf_seen {p q : Ptr} (h : seen st p = seen st' q) : strOf st p = strOf st' q := by
  cases p with
  | null =>
    cases q with
    | null => rfl
    | ref j => cases h
    | wild => cases h
  | ref i =>
    cases q with
    | null => cases h
    | ref j =>
      have htext : cstr (st.mem.drop i) = cstr (st'.mem.drop j) := Seen.text.inj h
      rw [strOf, strOf, htext]
    | wild => cases h
  | wild =>
    cases q with
    | null => cases h
    | ref j => cases h
    | wild => rfl

theorem putName_seen {p q : Ptr} (h : seen st p = seen st' q) (w : ℕ) :
    putName w st p = putName w st' q := by
  rw [putName, putName, strOf_seen h]

theorem dnsEncName_seen {p q : Ptr} (h : seen st p = seen st' q) :
    dnsEncName st p = dnsEncName st' q := by
  simp only [dnsEncName, putName_seen h]

theorem encTxt_seen {ps qs : List Ptr} (h : ps.map (seen st) = qs.map (seen st')) :
    encTxt st ps = encTxt st' qs := by
  induction ps generalizing qs with
  | nil =>
    cases qs with
    | nil => rfl
    | cons q qs => cases h
  | cons p ps ih =>
    cases qs with
    | nil => cases h
    | cons q qs =>
      rw [List.map_cons, List.map_cons, List.cons.injEq] at h
      rw [encTxt, encTxt, strOf_seen h.1, ih h.2]

end Strings

section Records

variable {st st' : NameStore} {r r' : DnsRr Ptr}

theorem encRdata_seen (h : seeRr st r = seeRr st' r') (rdlenPtr : ℕ) :
    encRdata st r rdlenPtr = encRdata st' r' rdlenPtr := by
  obtain ⟨-, htype, -, -, hnums, hstrs⟩ := RrSeen.mk.inj h
  rw [← htype] at hnums hstrs
  rw [encRdata, encRdata, ← htype]
  simp only [rdNums, rdPtrs, rdNames, rdStrs] at hnums hstrs
  cases hk : rrKind r.rrType with
  | a =>
    simp only [hk, RdNums.a.injEq] at hnums
    simp only [hnums]
  | aaaa =>
    simp only [hk, RdNums.aaaa.injEq] at hnums
    simp only [hnums]
  | ns | cname | ptr =>
    simp only [hk, List.append_nil, List.map_cons, List.cons.injEq] at hstrs
    exact dnsEncName_seen hstrs.1
  | soa =>
    simp only [hk, RdNums.soa.injEq] at hnums
    simp only [hk, List.append_nil, List.map_cons, List.cons.injEq] at hstrs
    simp only [encSoa, hnums, dnsEncName_seen hstrs.1, dnsEncName_seen hstrs.2.1]
  | hinfo =>
    simp only [hk, List.nil_append, List.map_cons, List.cons.injEq] at hstrs
    simp only [encHinfo, strOf_seen hstrs.1, strOf_seen hstrs.2.1]
  | mx =>
    simp only [hk, RdNums.mx.injEq] at hnums
    simp only [hk, List.append_nil, List.map_cons, List.cons.injEq] at hstrs
    simp only [encMx, hnums, dnsEncName_seen hstrs.1]
  | txt =>
    simp only [hk, List.nil_append] at hstrs
    exact encTxt_seen hstrs
  | srv =>
    simp only [hk, RdNums.srv.injEq] at hnums
    simp only [hk, List.append_nil, List.map_cons, List.cons.injEq] at hstrs
    simp only [encSrv, hnums, dnsEncName_seen hstrs.1]
  | opt =>
    simp only [hk, RdNums.opt.injEq] at hnums
    simp only [encOpt, optTtl, hnums]
  | any => rfl
  | other => rfl

theorem encRrHdr_seen (h : seeRr st r = seeRr st' r') : encRrHdr st r = encRrHdr st' r' := by
  obtain ⟨hname, htype, hclass, httl, -, -⟩ := RrSeen.mk.inj h
  simp only [encRrHdr, putName_seen hname, htype, hclass, httl]

theorem dnsRrEncode_seen (h : seeRr st r = seeRr st' r') :
    dnsRrEncode st r = dnsRrEncode st' r' := by
  simp only [dnsRrEncode, encRrHdr_seen h, encRdata_seen h]

theorem encRecords_seen {rs rs' : List (DnsRr Ptr)}
    (h : rs.map (seeRr st) = rs'.map (seeRr st')) : encRecords st rs = encRecords st' rs' := by
  induction rs generalizing rs' with
  | nil =>
    cases rs' with
    | nil => rfl
    | cons r rs' => cases h
  | cons r rs ih =>
    cases rs' with
    | nil => cases h
    | cons r' rs' =>
      rw [List.map_cons, List.map_cons, List.cons.injEq] at h
      rw [encRecords, encRecords, dnsRrEncode_seen h.1, ih h.2]

end Records

section Messages

variable {m m' : DnsMsg}

theorem observe_records (h : observe m = observe m') (sc : Sect) :
    (records m sc).map (seeRr m.store) = (records m' sc).map (seeRr m'.store) := by
  obtain ⟨-, -, han, hns, har⟩ := MsgSeen.mk.inj h
  cases sc with
  | an => exact han
  | ns => exact hns
  | ar => exact har

theorem length_records (m : DnsMsg) (sc : Sect) : (records m sc).length = (m.sect sc).count := by
  have hsize := (m.sect sc).size
  have hfits := (m.sect sc).fits
  rw [records, List.length_take]
  omega

theorem observe_count (h : observe m = observe m') (sc : Sect) :
    (m.sect sc).count = (m'.sect sc).count := by
  have hlen := congrArg List.length (observe_records h sc)
  rwa [List.length_map, List.length_map, length_records, length_records] at hlen

theorem observe_qdLen (h : observe m = observe m') : m.qdLen = m'.qdLen := by
  obtain ⟨-, hqd, -⟩ := MsgSeen.mk.inj h
  have hm : m.qdLen ≤ 1 := m.qd_fits
  have hm' : m'.qdLen ≤ 1 := m'.qd_fits
  by_cases h0 : m.qdLen = 0
  · by_cases h0' : m'.qdLen = 0
    · rw [h0, h0']
    · rw [if_pos h0, if_neg h0'] at hqd
      cases hqd
  · by_cases h0' : m'.qdLen = 0
    · rw [if_neg h0, if_pos h0'] at hqd
      cases hqd
    · omega

theorem syncHdr_seen (h : observe m = observe m') : syncHdr m = syncHdr m' := by
  have hhdr := (MsgSeen.mk.inj h).1
  have han : m.an.count = m'.an.count := observe_count h .an
  have hns : m.ns.count = m'.ns.count := observe_count h .ns
  have har : m.ar.count = m'.ar.count := observe_count h .ar
  simp only [syncHdr, hhdr, observe_qdLen h, han, hns, har]

theorem encodeQd_seen (h : observe m = observe m') : encodeQd m = encodeQd m' := by
  have hlen := observe_qdLen h
  by_cases h1 : m.qdLen = 1
  · obtain ⟨-, hqd, -⟩ := MsgSeen.mk.inj h
    rw [if_neg (by omega), if_neg (by omega), List.cons.injEq, DnsQd.mk.injEq] at hqd
    obtain ⟨⟨hname, htype, hclass⟩, -⟩ := hqd
    have hquest : dnsEncQuest m.store m.qd = dnsEncQuest m'.store m'.qd := by
      simp only [dnsEncQuest, putName_seen hname, htype, hclass]
    rw [encodeQd, encodeQd, hquest, hlen]
  · rw [encodeQd, encodeQd, when_neg h1, when_neg (by omega)]

/-- The encoder does the same for messages of which the same can be observed. -/
theorem encodeMsg_seen (h : observe m = observe m') : encodeMsg m = encodeMsg m' := by
  have hsect (sc : Sect) : dnsSectEnc m sc = dnsSectEnc m' sc :=
    encRecords_seen (observe_records h sc)
  simp only [encodeMsg, encodeHdr, syncHdr_seen h, encodeQd_seen h, hsect]

theorem dnsMsgEncode_seen (h : observe m = observe m') (buf : Bytes) :
    dnsMsgEncode m buf = dnsMsgEncode m' buf := by
  rw [dnsMsgEncode, dnsMsgEncode, encodeMsg_seen h]

end Messages

end DnsPkt.SeenEncoding
