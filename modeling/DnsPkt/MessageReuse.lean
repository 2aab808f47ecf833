import DnsPkt.AlikeDecode

/-!
# A message that is used again

After a reset nothing of the past of a message can be observed, whatever is
added and loaded afterwards, as long as no `TXT` record meets a slot that
still counts strings and no `OPT` record is added to a slot with bits left
behind its flag. A reset clears neither, and both are read before they are
written.
-/

set_option autoImplicit false

namespace DnsPkt.MessageReuse
open DnsPkt.CheckedRun DnsPkt.CheckedRun.Run DnsPkt.PairedRun DnsPkt.Octets DnsPkt.Protocol
open DnsPkt.MessageStore DnsPkt.MessageSlots DnsPkt.MessageBuild DnsPkt.RecordDecoder
open DnsPkt.MessageDecoder DnsPkt.MessageHistory DnsPkt.AlikeMessages DnsPkt.AlikeBuild
open DnsPkt.AlikeDecode

/-- The slot that the record is added to counts no strings and has no bits behind its flag,
if the type of the record reads them. -/
def SlotFresh (m : DnsMsg) (sc : Sect) (src : DnsRr Str) : Prop :=
  (rrKind src.rrType = .txt → (slot m sc).rdata.txtNumStr = 0) ∧
    (rrKind src.rrType = .opt → (slot m sc).rdata.optZBits = 0)

def FreshCall (m : DnsMsg) : Call → Prop
  | .addRr code (some src) =>
    ∀ sc, sectOfCode code = some sc → ReachesRdata m sc src → SlotFresh m sc src
  | .decode pkt => ∀ v ∈ recordVisits (loadEnv pkt) m, TxtFresh pkt v
  | _ => True

/-- Every call of the run finds the slots it reads from fresh. -/
def FreshRun (m : DnsMsg) : List Call → Prop
  | [] => True
  | c :: cs => FreshCall m c ∧ ∀ rc m', c.run m = some (rc, m') → FreshRun m' cs

/-- Two calls that return one code and leave messages that look alike, or that are both
undefined. -/
inductive SameCall : Option (ℤ × DnsMsg) → Option (ℤ × DnsMsg) → Prop
  | none : SameCall none none
  | some (rc : ℤ) {m m' : DnsMsg} (h : Alike m m') : SameCall (some (rc, m)) (some (rc, m'))

theorem addReads_fresh {m m' : DnsMsg} (h : Alike m m') {sc : Sect} {src : DnsRr Str}
    (hl : SlotFresh m sc src) (hr : SlotFresh m' sc src) (V : Ptr → Prop) :
    AddReads src.rrType V (slot m sc).rdata (slot m' sc).rdata := by
  unfold AddReads
  cases hk : rrKind src.rrType with
  | txt =>
    exact txtAlike_free ⟨hl.1 hk, sized_slot h.sized_l sc⟩ ⟨hr.1 hk, sized_slot h.sized_r sc⟩
  | opt => exact (hl.2 hk).trans (hr.2 hk).symm
  | _ => trivial

theorem reachesRdata_alike {m m' : DnsMsg} (h : Alike m m') {sc : Sect} {src : DnsRr Str}
    (hreach : ReachesRdata m sc src) : ReachesRdata m' sc src := by
  refine ⟨h.count sc ▸ hreach.1, fun hnone => hreach.2 ?_⟩
  rcases msgStoreStr_alike h.len h.log src.name.bytes with ⟨hl, -⟩ | ⟨off, st, st', -, hr, -, -⟩
  · exact hl
  · rw [hr] at hnone
    cases hnone

theorem same_addRr {m m' : DnsMsg} (h : Alike m m') (code : ℤ) (src : Option (DnsRr Str))
    (hl : FreshCall m (.addRr code src)) (hr : FreshCall m' (.addRr code src)) :
    SameCall (some (dnsAddRr m code src)) (some (dnsAddRr m' code src)) := by
  unfold dnsAddRr
  cases hsc : sectOfCode code with
  | none => exact .some _ h
  | some sc =>
    cases src with
    | none => exact .some _ h
    | some src =>
      have hpair := paired_dnsSectAddRr h sc src fun hreach =>
        addReads_fresh h (hl sc hsc hreach) (hr sc hsc (reachesRdata_alike h hreach))
      dsimp only
      generalize dnsSectAddRr sc src m = o at hpair
      generalize dnsSectAddRr sc src m' = o' at hpair
      cases hpair with
      | ok h => exact .some _ h
      | exit h => exact .some _ h
      | fault c => exact c.elim

theorem same_addQdn {m m' : DnsMsg} (h : Alike m m') (qname : Bytes) (qtype qclass : UInt16) :
    SameCall (some (dnsAddQdn m qname qtype qclass)) (some (dnsAddQdn m' qname qtype qclass)) := by
  unfold dnsAddQdn
  by_cases hfree : m.qdLen+1 ≤ dnsMaxQd
  · have hfree' : m'.qdLen+1 ≤ dnsMaxQd := h.qdLen ▸ hfree
    have hzero : m.qdLen = 0 := Nat.lt_one_iff.mp hfree
    rw [dif_pos hfree, dif_pos hfree']
    rcases msgStoreStr_alike h.len h.log qname with ⟨hl, hr⟩ | ⟨off, st, st', hl, hr, hlen, hlog⟩
    · rw [hl, hr]
      exact .some _ (h.setQd m.qd_fits m'.qd_fits h.qdLen (by omega))
    · rw [hl, hr]
      exact .some _ ((h.setStore hl hr hlen hlog).setQd hfree hfree' (congrArg Nat.succ h.qdLen)
        fun _ => ⟨rfl, valid_new hl⟩)
  · have hfull : ¬ m'.qdLen+1 ≤ dnsMaxQd := h.qdLen ▸ hfree
    rw [dif_neg hfree, dif_neg hfull]
    exact .some _ h

theorem same_call {m m' : DnsMsg} (h : Alike m m') (c : Call) (hl : FreshCall m c)
    (hr : FreshCall m' c) : SameCall (c.run m) (c.run m') := by
  cases c with
  | init id flags =>
    refine .some 0 ?_
    have hset := h.setHdr { m.hdr with id := id, flags := flags }
    unfold dnsMsgInit
    rwa [← h.hdr]
  | reset => exact .some 0 (alike_reset h.sized_l h.sized_r)
  | addQdn qname qtype qclass => exact same_addQdn h qname qtype qclass
  | addRr code src => exact same_addRr h code src hl hr
  | decode pkt =>
    have hpair : Paired (fun _ => Both Alike) (Both Alike)
        (decodeMsg (loadEnv pkt) (initState m)) (decodeMsg (loadEnv pkt) (initState m')) :=
      paired_decodeMsg rfl h.sized_l h.sized_r hl hr
    unfold Call.run dnsMsgDecode
    dsimp only
    generalize decodeMsg (loadEnv pkt) (initState m) = o at hpair
    generalize decodeMsg (loadEnv pkt) (initState m') = o' at hpair
    cases hpair with
    | ok h => exact .some _ h.2
    | exit h => exact .none
    | fault c => exact .none

/-- The codes that a run returned and what can be observed of the message it left. -/
def outcome (r : Option (List ℤ × DnsMsg)) : Option (List ℤ × MsgSeen) :=
  r.map fun p => (p.1, observe p.2)

theorem outcome_runCalls {m m' : DnsMsg} (h : Alike m m') {cs : List Call} (hl : FreshRun m cs)
    (hr : FreshRun m' cs) : outcome (runCalls m cs) = outcome (runCalls m' cs) := by
  induction cs generalizing m m' with
  | nil => exact congrArg (fun v => some ([], v)) h.observe
  | cons c cs ih =>
    have hsame := same_call h c hl.1 hr.1
    have hcons (rc : ℤ) (r : Option (List ℤ × DnsMsg)) :
        outcome (r.map fun q => (rc :: q.1, q.2)) =
          (outcome r).map fun q => (rc :: q.1, q.2) := by
      cases r <;> rfl
    unfold runCalls
    generalize hrun : c.run m = o at hsame
    generalize hrun' : c.run m' = o' at hsame
    cases hsame with
    | none => rfl
    | some rc h =>
      simp only [Option.bind_some, hcons]
      rw [ih h (hl.2 _ _ hrun) (hr.2 _ _ hrun')]

/-- Two messages with any past, after a reset: one sequence of calls has one outcome. -/
theorem reuse_leaks_nothing {m m' : DnsMsg} (hm : Sized m) (hm' : Sized m') {cs : List Call}
    (hl : FreshRun (dnsMsgReset m) cs) (hr : FreshRun (dnsMsgReset m') cs) :
    outcome (runCalls (dnsMsgReset m) cs) = outcome (runCalls (dnsMsgReset m') cs) :=
  outcome_runCalls (alike_reset hm hm') hl hr

theorem name_plain : (0 : UInt8) ∉ ([97] : Bytes) := by decide

def addText (rrType : UInt16) : List Call :=
  let name : Str := some ⟨[97], name_plain⟩
  let rr : DnsRr Str := { zeroRr (none : Str) with
    name := name
    rrType := rrType
    rdata := { zeroRdata none with txtNumStr := 1, txtStr := [name] } }
  [.addRr 1 (some rr)]

theorem address_after_text : ∃ m, runCalls (zeroMsg 0) (addText 16) = some ([0], m) ∧
    outcome (runCalls (dnsMsgReset (zeroMsg 0)) (addText 1)) =
      outcome (runCalls (dnsMsgReset m) (addText 1)) := by
  have hrun : (runCalls (zeroMsg 0) (addText 16)).map Prod.fst = some [0] := by decide +kernel
  obtain ⟨⟨rcs, m⟩, hp, rfl⟩ := Option.map_eq_some_iff.mp hrun
  have hfresh (m : DnsMsg) : FreshRun m (addText 1) :=
    ⟨fun _ _ _ => ⟨fun h => absurd h (by decide), fun h => absurd h (by decide)⟩,
      fun _ _ _ => trivial⟩
  exact ⟨m, hp, reuse_leaks_nothing (encodable_zero 0).sized (encodable_runCalls hp).sized
    (hfresh _) (hfresh _)⟩

def answerStrs (r : Option (List ℤ × MsgSeen)) : Option (List ℕ) :=
  r.map fun p => p.2.an.map fun v => v.strs.length

theorem text_after_text_leaks : ¬ ∀ m m' : DnsMsg, Sized m → Sized m' → ∀ cs : List Call,
    outcome (runCalls (dnsMsgReset m) cs) = outcome (runCalls (dnsMsgReset m') cs) := by
  intro hall
  have hrun : (runCalls (zeroMsg 0) (addText 16)).map (fun p =>
      answerStrs (outcome (runCalls (dnsMsgReset p.2) (addText 16)))) = some (some [2]) := by
    decide +kernel
  have hzero : answerStrs (outcome (runCalls (dnsMsgReset (zeroMsg 0)) (addText 16))) =
      some [1] := by decide +kernel
  obtain ⟨⟨rcs, m⟩, hp, htwo⟩ := Option.map_eq_some_iff.mp hrun
  have heq := hall (zeroMsg 0) m (encodable_zero 0).sized (encodable_runCalls hp).sized (addText 16)
  rw [← heq, hzero] at htwo
  cases htwo

end DnsPkt.MessageReuse
