import DnsPkt.FailedAdd
import DnsPkt.FaithfulAdd
import DnsPkt.SeenEncoding

/-!
# Records of addresses and names that are added

A record with an address or one name is added exactly when its section has a
free slot and its strings fit into the store. Then what can be observed of it is
told by its source, and nothing else that can be observed changes. So whether a run
of additions succeeds does not depend on how the sections take turns.
-/

set_option autoImplicit false

namespace DnsPkt.AnswerRecords
open DnsPkt.CheckedRun DnsPkt.CheckedRun.Run DnsPkt.Octets DnsPkt.Protocol
open DnsPkt.MessageStore DnsPkt.MessageSlots DnsPkt.MessageBuild DnsPkt.MessageHistory
open DnsPkt.RecordView DnsPkt.AlikeMessages DnsPkt.AlikeBuild DnsPkt.MessageReuse
open DnsPkt.FaithfulAdd DnsPkt.FailedAdd DnsPkt.SeenEncoding

def IsAnswer (rr : DnsRr Str) : Prop :=
  rrKind rr.rrType = .a ∨ rrKind rr.rrType = .aaaa ∨ rrKind rr.rrType = .cname

def rdataStrs (rr : DnsRr Str) : List Str :=
  if rrKind rr.rrType = .cname then [rr.rdata.cname] else []

def answerStrs (rr : DnsRr Str) : List Str := rr.name :: rdataStrs rr

def strsRoom (strs : List Str) : ℕ := (strs.map fun s => s.bytes.length+1).sum

def answerNums (rr : DnsRr Str) : RdNums :=
  match rrKind rr.rrType with
  | .a => .a rr.rdata.a
  | .aaaa => .aaaa rr.rdata.aaaa
  | _ => .none

def seeAnswer (rr : DnsRr Str) : RrSeen :=
  ⟨.text rr.name.bytes, rr.rrType, rr.rrClass, rr.ttl, answerNums rr,
    (rdataStrs rr).map fun s => .text s.bytes⟩

def seeSect (m : DnsMsg) (sc : Sect) : List RrSeen := (records m sc).map (seeRr m.store)

theorem seen_of_str {st : NameStore} {p : Ptr} {b : Bytes} (h : st.str p = some b) :
    seen st p = .text b := by
  cases p with
  | null => cases h
  | ref off => exact congrArg Seen.text (Option.some.inj h)
  | wild => cases h

theorem seen_congr {st st' : NameStore} {p : Ptr} (hp : Valid st p) (h : st'.str p = st.str p) :
    seen st' p = seen st p := by
  rcases hp with rfl | ⟨e, -, rfl⟩
  · rfl
  · exact congrArg Seen.text (Option.some.inj h)

theorem seeRr_congr {st st' : NameStore} {r : DnsRr Ptr}
    (h : ∀ p ∈ rrPtrs r, seen st' p = seen st p) : seeRr st' r = seeRr st r := by
  have hname : seen st' r.name = seen st r.name := h _ (List.mem_cons_self ..)
  have hstrs : (rdPtrs r.rrType r.rdata).map (seen st') = (rdPtrs r.rrType r.rdata).map (seen st) :=
    List.map_congr_left fun p hp => h p (List.mem_cons_of_mem _ hp)
  rw [seeRr, seeRr, hname, hstrs]

theorem seeRr_copied {st : NameStore} {rr : DnsRr Str} {r : DnsRr Ptr} (hrr : IsAnswer rr)
    (h : RrCopied st rr r) : seeRr st r = seeAnswer rr := by
  obtain ⟨hname, htype, hclass, httl, hrd⟩ := h
  rw [seeRr, seeAnswer, seen_of_str hname, htype, hclass, httl]
  rw [RdCopied] at hrd
  simp only [answerNums, rdataStrs, rdNums, rdPtrs, rdNames, rdStrs]
  rcases hrr with hk | hk | hk
  · simp only [hk] at hrd ⊢
    rw [hrd]
    rfl
  · simp only [hk] at hrd ⊢
    rw [hrd]
    rfl
  · simp only [hk] at hrd ⊢
    simp only [if_true, List.append_nil, List.map_cons, List.map_nil, seen_of_str hrd]

section Add

variable {m t : DnsMsg} {sc : Sect} {rr : DnsRr Str}

structure Appended (m t : DnsMsg) (sc : Sect) (rr : DnsRr Str) : Prop where
  sees : ∀ sc', seeSect t sc' = seeSect m sc' ++ if sc' = sc then [seeAnswer rr] else []
  len : t.store.len = m.store.len+strsRoom (answerStrs rr)
  hdr : t.hdr = m.hdr
  qdLen : t.qdLen = m.qdLen
  ready : Alike t t

theorem strsRoom_cons (s : Str) (strs : List Str) :
    strsRoom (s :: strs) = s.bytes.length+1+strsRoom strs := by
  rw [strsRoom, strsRoom, List.map_cons, List.sum_cons]

theorem storeFits_first {st : NameStore} {s : Str} {rest : List Str}
    (h : StoreFits st (s :: rest)) : (msgStoreStr st s.bytes).isSome := by
  obtain ⟨hlen, hroom⟩ := h
  rw [List.map_cons, List.sum_cons] at hroom
  have hs := hlen s (List.mem_cons_self ..)
  rw [msgStoreStr_isSome]
  omega

theorem addName_answer (str : Str) (f : ℕ → Ptr → Rdata Ptr → Rdata Ptr) (m : DnsMsg) (sc : Sect)
    (st : NameStore) (r : DnsRr Ptr) :
    (StoreFits st [str] → ∃ st' r', addName sc str f (stage m sc st r) =
      .ok () (stage m sc st' r') ∧ st'.len = st.len+strsRoom [str]) ∧
    (¬ StoreFits st [str] → ∃ t, addName sc str f (stage m sc st r) = .exit (-1) t) := by
  obtain ⟨p, st', hp, hs⟩ := storeStr_stage m sc st r str.bytes
  rw [addName, bind_of_ok hs, bind_of_ok (modifyRdata_stage _), storeFits_one]
  rcases hp with ⟨off, hput, rfl⟩ | ⟨hput, rfl, rfl⟩
  · have hnot : ¬ Ptr.ref off = .null := by simp
    rw [when_neg hnot, hput]
    refine ⟨fun _ => ⟨st', _, rfl, (msgStoreStr_some hput).2.2.1⟩, fun h => absurd rfl h⟩
  · rw [when_pos rfl, hput]
    exact ⟨fun h => absurd h (by simp), fun _ => ⟨_, rfl⟩⟩

/-- The RDATA is added if the name in it, if there is one, fits behind the owner. -/
theorem addRdata_answer (hrr : IsAnswer rr) (m : DnsMsg) (sc : Sect) (st : NameStore)
    (r : DnsRr Ptr) :
    (StoreFits st (rdataStrs rr) → ∃ st' r', addRdata sc rr (stage m sc st r) =
      .ok () (stage m sc st' r') ∧ st'.len = st.len+strsRoom (rdataStrs rr)) ∧
    (¬ StoreFits st (rdataStrs rr) → ∃ t, addRdata sc rr (stage m sc st r) = .exit (-1) t) := by
  have hnil : StoreFits st [] := ⟨by simp, by simpa using st.fits⟩
  rw [addRdata]
  rcases hrr with hk | hk | hk
  · have hstrs : rdataStrs rr = [] := if_neg (by simp [hk])
    simp only [hk, hstrs, modifyRdata_stage]
    exact ⟨fun _ => ⟨st, _, rfl, rfl⟩, fun h => absurd hnil h⟩
  · have hstrs : rdataStrs rr = [] := if_neg (by simp [hk])
    simp only [hk, hstrs, modifyRdata_stage]
    exact ⟨fun _ => ⟨st, _, rfl, rfl⟩, fun h => absurd hnil h⟩
  · have hstrs : rdataStrs rr = [rr.rdata.cname] := if_pos hk
    simp only [hk, hstrs]
    exact addName_answer _ _ m sc st r

/-- Whether the record is added. -/
theorem addRr_answer (hrr : IsAnswer rr) (m : DnsMsg) (sc : Sect) :
    ((m.sect sc).count < dnsMaxRr ∧ StoreFits m.store (answerStrs rr) →
      ∃ t, dnsSectAddRr sc rr m = .ok 0 t ∧
        t.store.len = m.store.len+strsRoom (answerStrs rr)) ∧
    (¬ ((m.sect sc).count < dnsMaxRr ∧ StoreFits m.store (answerStrs rr)) →
      ∃ t, dnsSectAddRr sc rr m = .exit (-1) t) := by
  by_cases hfree : (m.sect sc).count < dnsMaxRr
  · rw [and_iff_right hfree]
    cases hput : msgStoreStr m.store rr.name.bytes with
    | none =>
      have hno : ¬ StoreFits m.store (answerStrs rr) := by
        intro hfits
        have hsome := storeFits_first hfits
        rw [hput] at hsome
        cases hsome
      exact ⟨fun h => absurd h hno, fun _ => ⟨_, addRr_unstored hfree hput⟩⟩
    | some q =>
      have hcons : StoreFits m.store (answerStrs rr) ↔ StoreFits q.2 (rdataStrs rr) :=
        storeFits_cons _ hput
      have hlen := (msgStoreStr_some hput).2.2.1
      obtain ⟨hadd, hfail⟩ := addRdata_answer hrr m sc q.2 (headed m sc rr (.ref q.1))
      rw [addRr_stored hfree hput, hcons]
      constructor
      · intro hfits
        obtain ⟨st', r', hrun, hroom⟩ := hadd hfits
        refine ⟨(stage m sc st' r').countUp sc, bind_of_ok hrun _, ?_⟩
        rw [countUp_store, stage_store, hroom, hlen, answerStrs, strsRoom_cons]
        omega
      · intro hfull
        obtain ⟨t, hrun⟩ := hfail hfull
        exact ⟨t, bind_of_exit hrun _⟩
  · exact ⟨fun h => absurd h.1 hfree, fun _ => ⟨m, addRr_full (Nat.le_of_not_lt hfree)⟩⟩

theorem appended_of_ok (hrr : IsAnswer rr) (hm : Alike m m) {rc : ℤ}
    (h : dnsSectAddRr sc rr m = .ok rc t)
    (hlen : t.store.len = m.store.len+strsRoom (answerStrs rr)) : Appended m t sc rr := by
  have hreads (V : Ptr → Prop) : AddReads rr.rrType V (slot m sc).rdata (slot m sc).rdata := by
    rw [AddReads]
    rcases hrr with hk | hk | hk
    · rw [hk]
      trivial
    · rw [hk]
      trivial
    · rw [hk]
      trivial
  have hcopy : RdCopyable m.store (slot m sc).rdata rr := by
    rw [RdCopyable]
    rcases hrr with hk | hk | hk
    · rw [hk]
      trivial
    · rw [hk]
      trivial
    · rw [hk]
      trivial
  obtain ⟨⟨r, hlast, hr⟩, hothers, hstrings, hhdr, -, hqd⟩ :=
    (grown_iff hm.intact_l hm.sized_l h).mpr hcopy
  have hold (sc' : Sect) : (records m sc').map (seeRr t.store) = seeSect m sc' :=
    List.map_congr_left fun r hr => seeRr_congr fun p hp =>
      have hv := owned_of_alike hm sc' r hr p hp
      seen_congr hv (hstrings sc' r hr p hp hv)
  refine ⟨fun sc' => ?_, hlen, hhdr, hqd, ?_⟩
  · by_cases hsc : sc' = sc
    · rw [if_pos hsc, hsc, seeSect, hlast, List.map_append, hold, List.map_singleton,
        seeRr_copied hrr hr]
    · rw [if_neg hsc, seeSect, hothers sc' hsc, hold, List.append_nil]
  · have hpair := paired_dnsSectAddRr hm sc rr fun _ => hreads
    rw [h] at hpair
    cases hpair with
    | ok ht => exact ht

end Add

abbrev Additions := List (Sect × DnsRr Str)

def ofSect (sc : Sect) (rs : Additions) : List (DnsRr Str) :=
  (rs.filter fun p => p.1 = sc).map Prod.snd

def addAll : DnsMsg → Additions → Option DnsMsg
  | m, [] => some m
  | m, p :: rs =>
    let r := returned (dnsSectAddRr p.1 p.2 m)
    if r.1 < 0 then none else addAll r.2 rs

def answersRoom (rs : Additions) : ℕ := (rs.map fun p => strsRoom (answerStrs p.2)).sum

structure Room (m : DnsMsg) (rs : Additions) : Prop where
  slots : ∀ sc, (m.sect sc).count+(ofSect sc rs).length ≤ dnsMaxRr
  short : ∀ p ∈ rs, ∀ s ∈ answerStrs p.2, s.bytes.length ≤ dnsNameMaxstr
  store : m.store.len+answersRoom rs ≤ dnsMaxPdusize

structure AddedAll (m t : DnsMsg) (rs : Additions) : Prop where
  sees : ∀ sc, seeSect t sc = seeSect m sc ++ (ofSect sc rs).map seeAnswer
  hdr : t.hdr = m.hdr
  qdLen : t.qdLen = m.qdLen
  ready : Alike t t

section Run

variable {m t : DnsMsg} {p : Sect × DnsRr Str} {rs : Additions}

theorem ofSect_cons (sc : Sect) (p : Sect × DnsRr Str) (rs : Additions) :
    ofSect sc (p :: rs) = (if sc = p.1 then [p.2] else []) ++ ofSect sc rs := by
  rw [ofSect, ofSect]
  by_cases hsc : sc = p.1
  · rw [if_pos hsc, List.filter_cons_of_pos (by simp [hsc])]
    rfl
  · rw [if_neg hsc, List.filter_cons_of_neg (by simpa using fun h => hsc h.symm)]
    rfl

theorem answersRoom_cons (p : Sect × DnsRr Str) (rs : Additions) :
    answersRoom (p :: rs) = strsRoom (answerStrs p.2)+answersRoom rs := by
  rw [answersRoom, answersRoom, List.map_cons, List.sum_cons]

theorem length_seeSect (m : DnsMsg) (sc : Sect) : (seeSect m sc).length = (m.sect sc).count := by
  rw [seeSect, List.length_map, length_records]

theorem Room.first (h : Room m (p :: rs)) :
    (m.sect p.1).count < dnsMaxRr ∧ StoreFits m.store (answerStrs p.2) := by
  have hslots := h.slots p.1
  have hstore := h.store
  rw [ofSect_cons, if_pos rfl, List.length_append, List.length_singleton] at hslots
  rw [answersRoom_cons, strsRoom] at hstore
  exact ⟨by omega, h.short p (List.mem_cons_self ..), by omega⟩

theorem Appended.count (h : Appended m t p.1 p.2) (sc : Sect) :
    (t.sect sc).count = (m.sect sc).count+(if sc = p.1 then [p.2] else []).length := by
  have hlen := congrArg List.length (h.sees sc)
  rw [List.length_append, length_seeSect, length_seeSect] at hlen
  rw [hlen]
  by_cases hsc : sc = p.1
  · rw [if_pos hsc, if_pos hsc]
    rfl
  · rw [if_neg hsc, if_neg hsc]
    rfl

theorem Appended.room (h : Appended m t p.1 p.2)
    (hfits : StoreFits m.store (answerStrs p.2)) : Room m (p :: rs) ↔ Room t rs := by
  have hlen := h.len
  constructor
  · intro hm
    refine ⟨fun sc => ?_, fun q hq => hm.short q (List.mem_cons_of_mem _ hq), ?_⟩
    · have hslots := hm.slots sc
      rw [ofSect_cons, List.length_append] at hslots
      rw [h.count]
      omega
    · have hstore := hm.store
      rw [answersRoom_cons] at hstore
      omega
  · intro ht
    refine ⟨fun sc => ?_, ?_, ?_⟩
    · have hslots := ht.slots sc
      rw [h.count] at hslots
      rw [ofSect_cons, List.length_append]
      omega
    · rw [List.forall_mem_cons]
      exact ⟨hfits.1, ht.short⟩
    · have hstore := ht.store
      rw [answersRoom_cons]
      omega

theorem Appended.addedAll (h : Appended m t p.1 p.2) {u : DnsMsg} (hu : AddedAll t u rs) :
    AddedAll m u (p :: rs) := by
  refine ⟨fun sc => ?_, hu.hdr.trans h.hdr, hu.qdLen.trans h.qdLen, hu.ready⟩
  rw [hu.sees, h.sees, ofSect_cons, List.map_append, List.append_assoc]
  by_cases hsc : sc = p.1
  · rw [if_pos hsc, if_pos hsc]
    rfl
  · rw [if_neg hsc, if_neg hsc]
    rfl

/-- A run of additions succeeds exactly when there is room for all of them. -/
theorem addAll_room (hm : Alike m m) (hrs : ∀ p ∈ rs, IsAnswer p.2) :
    (Room m rs → ∃ t, addAll m rs = some t ∧ AddedAll m t rs) ∧
      (¬ Room m rs → addAll m rs = none) := by
  induction rs generalizing m with
  | nil =>
    have hroom : Room m [] := ⟨fun sc => (m.sect sc).fits, by simp, m.store.fits⟩
    refine ⟨fun _ => ⟨m, rfl, fun sc => ?_, rfl, rfl, hm⟩, fun h => absurd hroom h⟩
    exact (List.append_nil _).symm
  | cons p rs ih =>
    obtain ⟨hp, hrest⟩ := List.forall_mem_cons.mp hrs
    obtain ⟨hadd, hfail⟩ := addRr_answer hp m p.1
    by_cases hfirst : (m.sect p.1).count < dnsMaxRr ∧ StoreFits m.store (answerStrs p.2)
    · obtain ⟨t, hrun, hlen⟩ := hadd hfirst
      have happ := appended_of_ok hp hm hrun hlen
      obtain ⟨hsome, hnone⟩ := ih happ.ready hrest
      have hstep : addAll m (p :: rs) = addAll t rs := by
        rw [addAll, hrun]
        rfl
      rw [hstep, happ.room hfirst.2]
      refine ⟨fun hroom => ?_, hnone⟩
      obtain ⟨u, hu, hall⟩ := hsome hroom
      exact ⟨u, hu, happ.addedAll hall⟩
    · obtain ⟨t, hrun⟩ := hfail hfirst
      have hstep : addAll m (p :: rs) = none := by
        rw [addAll, hrun]
        rfl
      exact ⟨fun hroom => absurd hroom.first hfirst, fun _ => hstep⟩

end Run

section Order

variable {rs rs' : Additions}

theorem mem_ofSect {p : Sect × DnsRr Str} : p ∈ rs ↔ p.2 ∈ ofSect p.1 rs := by
  simp [ofSect]

theorem answersRoom_sects (rs : Additions) : answersRoom rs =
    ((ofSect .an rs).map fun rr => strsRoom (answerStrs rr)).sum+
      (((ofSect .ns rs).map fun rr => strsRoom (answerStrs rr)).sum+
        ((ofSect .ar rs).map fun rr => strsRoom (answerStrs rr)).sum) := by
  induction rs with
  | nil => rfl
  | cons p rs ih =>
    obtain ⟨sc, rr⟩ := p
    rw [answersRoom_cons, ih, ofSect_cons, ofSect_cons, ofSect_cons]
    cases sc with
    | an => simp [Nat.add_assoc]
    | ns =>
      simp
      omega
    | ar =>
      simp
      omega

/-- Additions that give each section the same records need the same room. -/
theorem room_of_sects (h : ∀ sc, ofSect sc rs = ofSect sc rs') {m : DnsMsg} (hroom : Room m rs) :
    Room m rs' := by
  refine ⟨fun sc => h sc ▸ hroom.slots sc, fun p hp => ?_, ?_⟩
  · rw [mem_ofSect, ← h, ← mem_ofSect] at hp
    exact hroom.short p hp
  · rw [answersRoom_sects, ← h, ← h, ← h, ← answersRoom_sects]
    exact hroom.store

end Order

end DnsPkt.AnswerRecords
