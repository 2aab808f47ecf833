import DnsPkt.ParsedOptions

/-!
# Messages of records

What is sent of a message that was made by additions is told by what can be
observed of the records of each section. Where these are comparable and do not look
alike, different bytes are sent.
-/

set_option autoImplicit false

namespace DnsPkt.SentRecords
open DnsPkt.CheckedRun DnsPkt.CheckedRun.Run DnsPkt.Octets DnsPkt.Protocol DnsPkt.MessageStore
open DnsPkt.MessageSlots DnsPkt.MessageEncoder DnsPkt.AlikeMessages
open DnsPkt.SeenEncoding DnsPkt.AnswerRecords DnsPkt.ApartRecords DnsPkt.RecordTrace
open DnsPkt.QueryTool DnsPkt.ResponseOptions DnsPkt.ParsedOptions
open DnsPkt.GeneratedFrame (ethipudpLen)
open DnsPkt.NameEncoder hiding Comparable

structure Made (m : DnsMsg) (rs : Additions) : Prop where
  sees : ∀ sc, seeSect m sc = (ofSect sc rs).map seeAnswer
  hdr : m.hdr = dnsHdrReset
  qdLen : m.qdLen = 0
  answer : ∀ p ∈ rs, IsAnswer p.2
  short : ∀ p ∈ rs, ∀ s ∈ answerStrs p.2, s.bytes.length ≤ dnsNameMaxstr

section Made

variable {base : ℕ} {m m' : DnsMsg} {rs rs' : Additions}

theorem made_of_room (hrs : ∀ p ∈ rs, IsAnswer p.2) (hroom : Room (zeroMsg base) rs) :
    ∃ m, addAll (zeroMsg base) rs = some m ∧ Made m rs := by
  obtain ⟨m, hm, hall⟩ := (addAll_room (FaithfulAdd.alike_zero base) hrs).1 hroom
  refine ⟨m, hm, fun sc => ?_, hall.hdr, hall.qdLen, hrs, hroom.short⟩
  have hnil : seeSect (zeroMsg base) sc = [] :=
    List.length_eq_zero_iff.mp ((length_seeSect _ _).trans (by cases sc <;> rfl))
  rw [hall.sees, hnil, List.nil_append]

theorem made_of_addAll (hrs : ∀ p ∈ rs, IsAnswer p.2) (hm : addAll (zeroMsg base) rs = some m) :
    Room (zeroMsg base) rs ∧ Made m rs := by
  obtain ⟨hadd, hfail⟩ := addAll_room (FaithfulAdd.alike_zero base) hrs
  have hroom : Room (zeroMsg base) rs := by
    by_contra hno
    rw [hfail hno] at hm
    cases hm
  obtain ⟨u, hu, hmade⟩ := made_of_room hrs hroom
  obtain rfl := Option.some.inj (hu.symm.trans hm)
  exact ⟨hroom, hmade⟩

/-- The order of the sections and the place of the store do not matter. -/
theorem made_sects (h : ∀ sc, ofSect sc rs = ofSect sc rs') (hrs : ∀ p ∈ rs, IsAnswer p.2)
    (hm : addAll (zeroMsg base) rs = some m) (base' : ℕ) :
    ∃ m', addAll (zeroMsg base') rs' = some m' ∧ Made m' rs' := by
  have hrs' : ∀ p ∈ rs', IsAnswer p.2 := by
    intro p hp
    rw [mem_ofSect, ← h, ← mem_ofSect] at hp
    exact hrs p hp
  have hroom := room_of_sects h (made_of_addAll hrs hm).1
  exact made_of_room hrs' ⟨hroom.slots, hroom.short, hroom.store⟩

theorem Made.count (h : Made m rs) (sc : Sect) : (m.sect sc).count = (ofSect sc rs).length := by
  rw [← length_seeSect, h.sees, List.length_map]

theorem Made.observe (h : Made m rs) (h' : Made m' rs') (hsee : ∀ sc,
    (ofSect sc rs).map seeAnswer = (ofSect sc rs').map seeAnswer) (id flags : UInt16) :
    observe (dnsMsgInit m id flags) = observe (dnsMsgInit m' id flags) := by
  have hsect (sc : Sect) : seeSect m sc = seeSect m' sc := by rw [h.sees, h'.sees, hsee]
  have hqd : m.qdLen = 0 := h.qdLen
  have hqd' : m'.qdLen = 0 := h'.qdLen
  rw [AlikeMessages.observe, AlikeMessages.observe]
  simp only [dnsMsgInit, hqd, hqd', h.hdr, h'.hdr, if_true]
  congr 1
  · exact hsect .an
  · exact hsect .ns
  · exact hsect .ar

theorem sentMessage_same (h : Made m rs) (h' : Made m' rs') (hsee : ∀ sc,
    (ofSect sc rs).map seeAnswer = (ofSect sc rs').map seeAnswer) (id : UInt16) :
    sentMessage m id = sentMessage m' id := by
  rw [sentMessage, sentMessage, dnsMsgEncode_seen (h.observe h' hsee id dnsFlagsQr)]

end Made

theorem sentMessage_ok {m : DnsMsg} {id : UInt16} {d : Bytes} (h : sentMessage m id = some d) :
    ∃ t, encodeMsg (dnsMsgInit m id dnsFlagsQr) (initEnc (emptyBuf.drop ethipudpLen)) = .ok () t ∧
      (t.pktLen ≤ t.pktBuf.length → d = t.pktBuf.take t.pktLen) := by
  rw [sentMessage] at h
  cases hrun : dnsMsgEncode (dnsMsgInit m id dnsFlagsQr) (emptyBuf.drop ethipudpLen) with
  | ok n t =>
    rw [hrun, packed] at h
    by_cases hn : ethipudpLen+t.pktBuf.length ≤ dnsMaxPdusize ∧ 0 < n
    · rw [if_pos hn] at h
      obtain ⟨henc, rfl⟩ := EncodedFrames.dnsMsgEncode_run hrun hn.2.le
      refine ⟨t, henc, fun hle => ?_⟩
      have hfront : (emptyBuf.take ethipudpLen).length = ethipudpLen := rfl
      rw [← Option.some.inj h, slice, patch, Int.toNat_natCast, List.append_assoc,
        List.drop_left' hfront, List.take_append_of_le_length hle]
    · rw [if_neg hn] at h
      cases h
  | exit n t => exact absurd hrun (call_ne_exit _ _ _ _)
  | fault c =>
    rw [hrun] at h
    cases h

section Apart

variable {m m' : DnsMsg} {rs rs' : Additions}

theorem Made.shown (h : Made m rs) (sc : Sect) :
    List.Forall₂ (ShownAs m.store) (records m sc) (ofSect sc rs) := by
  have hsees : List.Forall₂ (fun r rr => seeRr m.store r = seeAnswer rr) (records m sc)
      (ofSect sc rs) := by
    rw [← List.forall₂_map_left_iff (R := fun x rr => x = seeAnswer rr),
      ← List.forall₂_map_right_iff (R := Eq), List.forall₂_eq_eq_eq]
    exact h.sees sc
  refine List.forall₂_iff_get.mpr ⟨hsees.length_eq, fun i hi hi' => ?_⟩
  have hmem : (ofSect sc rs).get ⟨i, hi'⟩ ∈ ofSect sc rs := List.get_mem ..
  have hin : (sc, (ofSect sc rs).get ⟨i, hi'⟩) ∈ rs := mem_ofSect.mpr hmem
  exact ⟨(List.forall₂_iff_get.mp hsees).2 i hi hi', h.answer _ hin, h.short _ hin⟩

def allOf (rs : Additions) : List (DnsRr Str) := ofSect .an rs ++ (ofSect .ns rs ++ ofSect .ar rs)

theorem Made.shown_all (h : Made m rs) :
    List.Forall₂ (ShownAs m.store) (allRecords m) (allOf rs) :=
  List.rel_append (h.shown .an) (List.rel_append (h.shown .ns) (h.shown .ar))

theorem allOf_see {f : DnsRr Str → RrSeen}
    (hlen : ∀ sc, (ofSect sc rs).length = (ofSect sc rs').length)
    (h : (allOf rs).map f = (allOf rs').map f) (sc : Sect) :
    (ofSect sc rs).map f = (ofSect sc rs').map f := by
  simp only [allOf, List.map_append] at h
  obtain ⟨han, h⟩ := List.append_inj h (by rw [List.length_map, List.length_map, hlen])
  obtain ⟨hns, har⟩ := List.append_inj h (by rw [List.length_map, List.length_map, hlen])
  cases sc with
  | an => exact han
  | ns => exact hns
  | ar => exact har

/-- Records that do not look alike are sent as different bytes. -/
theorem sentMessage_apart (h : Made m rs) (h' : Made m' rs')
    (hc : ∀ sc, List.Forall₂ Comparable (ofSect sc rs) (ofSect sc rs')) {sc : Sect}
    (hne : (ofSect sc rs).map seeAnswer ≠ (ofSect sc rs').map seeAnswer) {id : UInt16}
    {d d' : Bytes}
    (hd : sentMessage m id = some d) (hd' : sentMessage m' id = some d') : d ≠ d' := by
  have hlen (sc : Sect) := (hc sc).length_eq
  have hall : List.Forall₂ Comparable (allOf rs) (allOf rs') :=
    List.rel_append (hc .an) (List.rel_append (hc .ns) (hc .ar))
  have hsee : (allOf rs).map seeAnswer ≠ (allOf rs').map seeAnswer :=
    fun heq => hne (allOf_see hlen heq sc)
  obtain ⟨t, ht, hbytes⟩ := sentMessage_ok hd
  obtain ⟨t', ht', hbytes'⟩ := sentMessage_ok hd'
  have hhdr : syncHdr (dnsMsgInit m id dnsFlagsQr) = syncHdr (dnsMsgInit m' id dnsFlagsQr) := by
    have han := (h.count .an).trans ((hlen .an).trans (h'.count .an).symm)
    have hns := (h.count .ns).trans ((hlen .ns).trans (h'.count .ns).symm)
    have har := (h.count .ar).trans ((hlen .ar).trans (h'.count .ar).symm)
    simp only [DnsMsg.sect] at han hns har
    simp only [syncHdr, dnsMsgInit, h.hdr, h'.hdr, h.qdLen, h'.qdLen, han, hns, har]
  rw [encodeMsg_eq] at ht ht'
  rw [← hhdr] at ht'
  obtain ⟨_, s, hs, ht⟩ := (bind_ok _ _ _ _ _).mp ht
  obtain ⟨_, s', hs', ht'⟩ := (bind_ok _ _ _ _ _).mp ht'
  rw [hs] at hs'
  cases hs'
  have hfits := (dnsEncMem_bytes hs).fits
  obtain ⟨_, u, hu, ht⟩ := (bind_ok _ _ _ _ _).mp ht
  obtain ⟨_, u', hu', ht'⟩ := (bind_ok _ _ _ _ _).mp ht'
  have hq : (dnsMsgInit m id dnsFlagsQr).qdLen ≠ 1 := by simp [dnsMsgInit, h.qdLen]
  have hq' : (dnsMsgInit m' id dnsFlagsQr).qdLen ≠ 1 := by simp [dnsMsgInit, h'.qdLen]
  rw [encodeQd, when_neg hq] at hu
  rw [encodeQd, when_neg hq'] at hu'
  cases hu
  cases hu'
  obtain ⟨c, c', hgrows, hgrows', hapart⟩ :=
    encRecords_apart h.shown_all h'.shown_all hall hsee hfits ht ht'
  rw [hbytes hgrows.fits, hbytes' hgrows'.fits]
  exact hgrows.ne hgrows' hapart

end Apart

end DnsPkt.SentRecords
