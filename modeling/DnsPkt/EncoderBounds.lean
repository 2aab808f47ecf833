import DnsPkt.EncodedFrames

/-!
# Writes beyond the buffer

Every function of the encoder reserves the space that it writes, except for
`SRV` records: two bytes are reserved and six are written. The encoder stays
in its buffer unless an `SRV` record finds room for two bytes and not for six.
-/

set_option autoImplicit false

namespace DnsPkt.EncoderBounds
open DnsPkt.CheckedRun DnsPkt.CheckedRun.Run DnsPkt.Octets DnsPkt.Protocol
open DnsPkt.MessageStore DnsPkt.MessageSlots DnsPkt.NameDecoder DnsPkt.NameEncoder
open DnsPkt.MessageEncoder DnsPkt.WriteTrace DnsPkt.EncoderTrace DnsPkt.RecordTrace
open DnsPkt.MessageHistory DnsPkt.EncodedFrames

/-! The records that an encoding gets to, each with the state in which `dns_rr_encode` is
called. -/

def encVisits (st : NameStore) : List (DnsRr Ptr) → DnsEnc → List (DnsRr Ptr × DnsEnc)
  | [], _ => []
  | rr :: rest, s => (rr, s) :: match dnsRrEncode st rr s with
    | .ok _ t => encVisits st rest t
    | _ => []

def recordEncodes (m : DnsMsg) (buf : Bytes) : List (DnsRr Ptr × DnsEnc) :=
  match (encodeHdr m >>= fun _ => encodeQd m) (initEnc buf) with
  | .ok _ s => encVisits m.store (allRecords m) s
  | _ => []

def IsWrite (c : Fault) : Prop := ∃ i, c = .bufWrite i

def IsRead (c : Fault) : Prop := c = .wildRead

theorem not_write_of_read (c : Fault) (h : IsRead c) : ¬ IsWrite c := by
  rintro ⟨i, rfl⟩
  cases h

theorem avoids_encRecords {P : Fault → Prop} (st : NameStore) (rrs : List (DnsRr Ptr))
    (s : DnsEnc) : Avoids P (encRecords st rrs) s ↔
      ∀ v ∈ encVisits st rrs s, Avoids P (dnsRrEncode st v.1) v.2 := by
  induction rrs generalizing s with
  | nil => simp [encRecords, encVisits]
  | cons rr rest ih =>
    rw [encRecords, avoids_bind]
    cases h : dnsRrEncode st rr s with
    | ok u t => simp [encVisits, h, ih]
    | exit e t => simp [encVisits, h]
    | fault c => simp [encVisits, h]

theorem length_of_encRrHdr {st : NameStore} (hst : Tame st) {rr : DnsRr Ptr} {s t : DnsEnc} {q : ℕ}
    (h : encRrHdr st rr s = .ok q t) : t.pktBuf.length = s.pktBuf.length := by
  obtain ⟨ws, hw, hbuf, -⟩ := (emits_encRrHdr (F := IsRead) rfl hst s).of_ok h
  have hbuf : t.pktBuf = writes ws s.pktBuf := hbuf
  rw [hbuf]
  exact length_writes hw

/-- An `SRV` record that finds room for two bytes and not for six. -/
theorem srv_over {st : NameStore} (hst : Tame st) {rr : DnsRr Ptr} {s t : DnsEnc} {q : ℕ}
    (hk : rrKind rr.rrType = .srv) (hhdr : encRrHdr st rr s = .ok q t)
    (h2 : t.pktLen+2 ≤ s.pktBuf.length) (h6 : s.pktBuf.length < t.pktLen+6) :
    dnsRrEncode st rr s = .fault (.bufWrite (max t.pktLen s.pktBuf.length)) := by
  have hlen := length_of_encRrHdr hst hhdr
  have hspace : mkspace 2 t = .ok t.pktLen { t with pktLen := t.pktLen+2 } := by
    rw [mkspace, bind_of_ok (get_run t), bind_when_neg (by omega)]
    rfl
  have hput : putBuf t.pktLen (encU16 rr.rdata.srvPrior ++ encU16 rr.rdata.srvWeight ++
      encU16 rr.rdata.srvPort) { t with pktLen := t.pktLen+2 } =
      .fault (.bufWrite (max t.pktLen s.pktBuf.length)) := by
    rw [putBuf, if_neg]
    · rw [hlen]
    · simp [encU16]
      omega
  have hsrv : encRdata st rr q t = .fault (.bufWrite (max t.pktLen s.pktBuf.length)) := by
    unfold encRdata
    simp only [hk]
    rw [encSrv, bind_of_ok hspace, bind_of_fault hput]
  rw [dnsRrEncode, bind_of_ok hhdr, bind_of_ok (get_run t), bind_of_fault hsrv]

theorem avoids_dnsRrEncode {st : NameStore} (hst : Tame st) {rr : DnsRr Ptr}
    (hsize : rr.rdata.txtStr.length = dnsMaxTxt) (s : DnsEnc) :
    Avoids IsWrite (dnsRrEncode st rr) s ↔ SrvRoom st rr s := by
  constructor
  · intro h hk q t hhdr h2
    by_contra h6
    exact h _ (srv_over hst hk hhdr h2 (by omega)) ⟨_, rfl⟩
  · intro h
    exact (emits_dnsRrEncode (F := IsRead) rfl hst hsize s (.inl h)).avoids not_write_of_read

theorem visits_mem {st : NameStore} {rrs : List (DnsRr Ptr)} {s : DnsEnc}
    {v : DnsRr Ptr × DnsEnc} (h : v ∈ encVisits st rrs s) : v.1 ∈ rrs := by
  induction rrs generalizing s with
  | nil => cases h
  | cons rr rest ih =>
    rcases List.mem_cons.mp h with rfl | h
    · exact List.mem_cons_self
    · cases hrun : dnsRrEncode st rr s with
      | ok u t =>
        rw [hrun] at h
        exact List.mem_cons_of_mem _ (ih h)
      | exit e t => simp [hrun] at h
      | fault c => simp [hrun] at h

theorem avoids_encodeMsg {m : DnsMsg} (hm : Encodable m) (buf : Bytes) :
    Avoids IsWrite (encodeMsg m) (initEnc buf) ↔
      ∀ v ∈ recordEncodes m buf, SrvRoom m.store v.1 v.2 := by
  have hfront : Emits IsRead (encodeHdr m >>= fun _ => encodeQd m) (initEnc buf)
      fun _ _ _ => True := by
    have hhdr : Emits IsRead (dnsEncMem (hdrBytes (syncHdr m))) (initEnc buf)
      fun _ => Appended (hdrBytes (syncHdr m)) (initEnc buf) := emits_dnsEncMem
    refine Traced.bind hhdr fun _ ws t ht h => ?_
    have ht : t.pktBuf.length = buf.length := ht
    have hfits : (initEnc buf).pktLen+(hdrBytes (syncHdr m)).length ≤ buf.length := h.fits
    refine (emits_encodeQd (F := IsRead) rfl hm.tame t ?_).imp fun _ _ _ _ _ _ => trivial
    rw [h.len, ht]
    exact hfits
  have heq : encodeMsg m = ((encodeHdr m >>= fun _ => encodeQd m) >>= fun _ =>
      encRecords m.store (allRecords m)) := by
    rw [encodeMsg_eq, bind_assoc]
    rfl
  have hvisits : ∀ s, (∀ v ∈ encVisits m.store (allRecords m) s,
      Avoids IsWrite (dnsRrEncode m.store v.1) v.2) ↔
      ∀ v ∈ encVisits m.store (allRecords m) s, SrvRoom m.store v.1 v.2 := fun s =>
    forall₂_congr fun v hv => avoids_dnsRrEncode hm.tame
      (sized_allRecords hm.sized v.1 (visits_mem hv)) v.2
  rw [heq, avoids_bind, and_iff_right (hfront.avoids not_write_of_read)]
  unfold recordEncodes
  cases hrun : (encodeHdr m >>= fun _ => encodeQd m) (initEnc buf) with
  | ok u s =>
    rw [← hvisits, ← avoids_encRecords]
    refine ⟨fun h => h u s rfl, fun h _ t ht => ?_⟩
    cases ht
    exact h
  | exit e t => simp
  | fault c => simp

/-- The encoder stays in its buffer exactly when every `SRV` record that it gets to, and for
which it can reserve two bytes, finds room for six. -/
theorem stays_inside_iff {base : ℕ} {cs : List Call} {rcs : List ℤ} {m : DnsMsg}
    (hm : runCalls (zeroMsg base) cs = some (rcs, m)) (buf : Bytes) :
    (∀ i, dnsMsgEncode m buf ≠ .fault (.bufWrite i)) ↔
      ∀ v ∈ recordEncodes m buf, SrvRoom m.store v.1 v.2 := by
  rw [← avoids_encodeMsg (encodable_runCalls hm)]
  have havoid : (∀ i, dnsMsgEncode m buf ≠ .fault (.bufWrite i)) ↔
      Avoids IsWrite (call (encodeMsg m >>= fun _ => get >>= fun s =>
        pure (s.pktLen : ℤ)) : Enc ℤ) (initEnc buf) := by
    constructor
    · rintro h c hc ⟨i, rfl⟩
      exact h i hc
    · intro h i hi
      exact h _ hi ⟨i, rfl⟩
  rw [havoid, avoids_call, avoids_bind]
  refine and_iff_left_of_imp fun _ a t _ => ?_
  exact avoids_seq (avoids_get _) fun s u _ => avoids_pure _ _

def zeroBuf (len : ℕ) : Bytes := List.replicate len 0

def longName : Bytes :=
  List.replicate 63 97 ++ [46] ++ List.replicate 63 98 ++ [46] ++ List.replicate 63 99 ++ [46] ++
    List.replicate 61 100

def addSrv (name : Bytes) (h : (0 : UInt8) ∉ name) : Call :=
  .addRr 1 (some { zeroRr (none : Str) with name := some ⟨name, h⟩, rrType := 33, rrClass := 1 })

theorem short_srv_inside : ∃ m, runCalls (zeroMsg 0) [addSrv [97] (by decide)] = some ([0], m) ∧
    recordEncodes m (zeroBuf 300) ≠ [] ∧
    ∀ i, dnsMsgEncode m (zeroBuf 300) ≠ .fault (.bufWrite i) := by
  have hrun : (runCalls (zeroMsg 0) [addSrv [97] (by decide)]).map (fun p => (p.1,
      (recordEncodes p.2 (zeroBuf 300)).map fun v => (v.2.pktBuf.length,
        (encRrHdr p.2.store v.1 v.2).result.map fun q => q.2.pktLen))) =
      some ([0], [(300, some 25)]) := by decide +kernel
  obtain ⟨⟨rcs, m⟩, hp, hf⟩ := Option.map_eq_some_iff.mp hrun
  simp only [Prod.mk.injEq] at hf
  obtain ⟨rfl, hvisits⟩ := hf
  refine ⟨m, hp, by rintro h; simp [h] at hvisits, (stays_inside_iff hp _).mpr ?_⟩
  intro v hv hk q t hhdr h2
  have hmem := List.mem_map_of_mem (f := fun v : DnsRr Ptr × DnsEnc => (v.2.pktBuf.length,
    (encRrHdr m.store v.1 v.2).result.map fun q => q.2.pktLen)) hv
  rw [hvisits] at hmem
  simp only [hhdr, Outcome.result, Option.map_some, List.mem_singleton, Prod.mk.injEq,
    Option.some.injEq] at hmem
  omega

/-- Two bytes are left behind the header of the record. -/
theorem srv_beyond_buffer : ∃ m, runCalls (zeroMsg 0) [addSrv longName (by decide)] =
    some ([0], m) ∧
    dnsMsgEncode m (zeroBuf 279) = .fault (.bufWrite 279) := by
  have hrun : (runCalls (zeroMsg 0) [addSrv longName (by decide)]).map (fun p => (p.1,
      (dnsMsgEncode p.2 (zeroBuf 279)).cause)) = some ([0], some (.bufWrite 279)) := by
    decide +kernel
  obtain ⟨⟨rcs, m⟩, hp, hf⟩ := Option.map_eq_some_iff.mp hrun
  simp only [Prod.mk.injEq] at hf
  obtain ⟨rfl, hcause⟩ := hf
  exact ⟨m, hp, Outcome.eq_fault hcause⟩

end DnsPkt.EncoderBounds
