import DnsPkt.AcceptedRun
import DnsPkt.MessageBuild
import Mathlib.Logic.Relation

/-!
# Histories of a message

A message is reset, filled by the API and loaded from packets in any order.
Whatever a call returns, it changed the message by a sequence of small
writes. Every write that raises a count stands behind the comparison of that
count with its bound. What one write preserves holds after any history.
-/

set_option autoImplicit false

namespace DnsPkt.MessageHistory
open DnsPkt.CheckedRun DnsPkt.CheckedRun.Run DnsPkt.Octets DnsPkt.Protocol
open DnsPkt.MessageStore DnsPkt.MessageSlots DnsPkt.MessageBuild DnsPkt.RecordDecoder
open DnsPkt.MessageDecoder DnsPkt.RecordRun DnsPkt.RecordFrame DnsPkt.AcceptedRun

inductive Edit (m : DnsMsg) : DnsMsg → Prop
  | touch {m' : DnsMsg} (h : Touch m m') : Edit m m'
  | header (hdr : DnsHdr) : Edit m { m with hdr := hdr }
  | question (qd : DnsQd Ptr) : Edit m { m with qd := qd }
  | ask (h : m.qdLen+1 ≤ dnsMaxQd) : Edit m { m with qdLen := m.qdLen+1, qd_fits := h }
  | count (sc : Sect) (h : (m.sect sc).count+1 ≤ dnsMaxRr) : Edit m (m.countUp sc)
  | reset : Edit m (dnsMsgReset m)

def Touches : DnsMsg → DnsMsg → Prop := Relation.ReflTransGen Touch

def Edits : DnsMsg → DnsMsg → Prop := Relation.ReflTransGen Edit

theorem Edits.refl (m : DnsMsg) : Edits m m := Relation.ReflTransGen.refl

theorem Edits.trans {a b c : DnsMsg} (h1 : Edits a b) (h2 : Edits b c) : Edits a c :=
  Relation.ReflTransGen.trans h1 h2

theorem Edit.edits {m m' : DnsMsg} (h : Edit m m') : Edits m m' := Relation.ReflTransGen.single h

theorem Touches.edits {m m' : DnsMsg} (h : Touches m m') : Edits m m' :=
  Relation.ReflTransGen.mono (fun _ _ h => Edit.touch h) _ _ h

/-- What every write preserves holds after any sequence of them. -/
theorem Edits.invariant {I : DnsMsg → Prop} (step : ∀ m m', Edit m m' → I m → I m')
    {m m' : DnsMsg} (h : Edits m m') (hm : I m) : I m' := by
  induction h with
  | refl => exact hm
  | tail _ h ih => exact step _ _ h ih

theorem Touches.counts {m m' : DnsMsg} (h : Touches m m') :
    m'.qdLen = m.qdLen ∧ ∀ sc, (m'.sect sc).count = (m.sect sc).count := by
  induction h with
  | refl => exact ⟨rfl, fun _ => rfl⟩
  | tail _ h ih => exact ⟨h.counts.1.trans ih.1, fun sc => (h.counts.2 sc).trans (ih.2 sc)⟩

def touchFrame : Frame DecState ℤ Fault where
  keep s t := Touches s.msg t.msg
  leave s _ t := Touches s.msg t.msg
  raise _ := True
  refl _ := Relation.ReflTransGen.refl
  trans h1 h2 := Relation.ReflTransGen.trans h1 h2
  lift h1 h2 := Relation.ReflTransGen.trans h1 h2

theorem dnsDecErr_msg (group field : DnsLocation) (ec : ℤ) (s : DecState) :
    (dnsDecErr group field ec s).2.msg = s.msg := by
  unfold dnsDecErr
  split <;> rfl

theorem touchFrame_allows : Allows 0 touchFrame where
  put s w b _ := by
    simp only [touchFrame, put_msg]
    exact Relation.ReflTransGen.refl
  move _ _ _ := Relation.ReflTransGen.refl
  load _ _ h := Relation.ReflTransGen.single h
  err s group field ec := by
    simp only [touchFrame, dnsDecErr_msg]
    exact Relation.ReflTransGen.refl
  fail _ := Relation.ReflTransGen.refl
  report _ _ := Relation.ReflTransGen.refl
  reads _ := trivial
  writes _ := trivial
  strings _ := trivial

def editFrame : Frame DecState ℤ Fault where
  keep s t := Edits s.msg t.msg
  leave s _ t := Edits s.msg t.msg
  raise _ := True
  refl _ := .refl _
  trans h1 h2 := h1.trans h2
  lift h1 h2 := h1.trans h2

theorem edits_of_ends {α : Type} {x : Dec α}
    (h : ∀ s, Ends (fun t => Edits s.msg t.msg) x s) : Keeps editFrame x :=
  ⟨fun hx => (h _).ok hx, fun hx => (h _).exit hx, fun _ => trivial⟩

theorem edits_of_touches {α : Type} {x : Dec α} (h : Keeps touchFrame x) : Keeps editFrame x :=
  ⟨fun hx => (h.ok hx).edits, fun hx => (h.exit hx).edits, fun _ => trivial⟩

theorem editFrame_calls : Calls editFrame where
  err s group field ec := by
    simp only [editFrame, dnsDecErr_msg]
    exact .refl _
  ret _ _ := .refl _
  back _ _ _ h := h

theorem rrSlot_ok {env : DecEnv} {sc : Sect} {s t : DecState} {u : Unit}
    (h : rrSlot env sc s = .ok u t) :
    t = s ∧ (env.loadMsg → (s.msg.sect sc).count+1 ≤ dnsMaxRr) := by
  rw [rrSlot, bind_of_ok (get_run s)] at h
  by_cases hfull : env.loadMsg ∧ dnsMaxRr ≤ (s.msg.sect sc).count
  · rw [when_pos hfull] at h
    cases h
  · rw [when_neg hfull] at h
    cases h
    exact ⟨rfl, fun hload => by
      have : ¬ dnsMaxRr ≤ (s.msg.sect sc).count := fun hle => hfull ⟨hload, hle⟩
      omega⟩

/-- A record is counted only where its slot was free at the start. -/
theorem edits_rrBody (env : DecEnv) (sc : Sect) : Keeps editFrame (rrBody env sc) := by
  have hslot : Keeps touchFrame (rrSlot env sc) :=
    keeps_rrSlot touchFrame_allows.toAllowsFill env sc
  have hfill : Keeps touchFrame (rrFill env sc) :=
    keeps_rrFill touchFrame_allows.toAllowsFill env sc rfl fun _ _ _ => Relation.ReflTransGen.refl
  refine edits_of_ends fun s => ?_
  rw [rrBody_eq]
  refine ends_bind (fun h => (hslot.exit h).edits) fun _ s1 h1 => ?_
  obtain ⟨rfl, hfree⟩ := rrSlot_ok h1
  refine ends_bind (fun h => (hfill.exit h).edits) fun p s2 h2 => ?_
  have htouch := hfill.ok h2
  have hreport (s : DecState) : Ends (fun t => Touches s.msg t.msg) (rrReport env sc p.1 p.2) s :=
    have hrep := keeps_rrReport touchFrame_allows env sc p.1 p.2
    ⟨fun h => hrep.ok h, fun h => hrep.exit h⟩
  by_cases hload : env.loadMsg
  · have hcount : (s2.msg.sect sc).count+1 ≤ dnsMaxRr := by
      rw [htouch.counts.2 sc]
      exact hfree hload
    rw [when_pos hload]
    refine ends_bind (fun h => by cases h) fun _ s3 h3 => ?_
    cases h3
    exact (hreport _).mono fun t ht => (htouch.edits.trans (Edit.count sc hcount).edits).trans
      ht.edits
  · rw [when_neg hload]
    refine ends_bind (fun h => by cases h) fun _ s3 h3 => ?_
    cases h3
    exact (hreport _).mono fun t ht => htouch.edits.trans ht.edits

theorem edits_dnsRrDecode (env : DecEnv) (sc : Sect) : Keeps editFrame (dnsRrDecode env sc) :=
  keeps_call (edits_rrBody env sc) (fun _ _ h => h) (fun _ _ _ h => h) fun _ _ => trivial

/-- The statements of a question decode between the check for a free slot and the load. -/
def qdFill (env : DecEnv) : Dec (ℕ × UInt16 × UInt16) := do
  let n ← qdName env
  let q ← qdFixed env
  pure (n, q)

theorem qdBody_eq (env : DecEnv) : qdBody env =
    (qdSlot env >>= fun _ => qdFill env >>= fun p =>
      when env.loadMsg (loadQd p.2.1 p.2.2) >>= fun _ =>
      if env.needEmsg then msgStr 0 >>= fun name => dnsWmsg env (qdLine name p.2.1 p.2.2)
      else pure (p.1 : ℤ)) := by
  simp only [qdBody, qdFill, bind_assoc, pure_bind]

theorem touches_qdFill (env : DecEnv) : Keeps touchFrame (qdFill env) := by
  have hF := touchFrame_allows
  refine Keeps.bind ((keeps_decodeNameAt hF.toAllowsFill env (Nat.zero_le 0)).bind fun r => ?_)
    fun _ =>
    Keeps.bind ?_ fun _ => keeps_pure _
  · cases r with
    | error ec => exact keeps_retErr hF.toAllowsFill _ _ _
    | ok n => exact keeps_pure _
  · exact keeps_getOffset.bind fun _ => (keeps_when _ fun _ =>
      keeps_retErr hF.toAllowsFill _ _ _).bind
      fun _ => (keeps_readBytes hF.toAllowsFill env _ _).bind fun _ =>
        (keeps_advance hF.toAllowsFill 4).bind
      fun _ => keeps_pure _

theorem qdSlot_ok {env : DecEnv} {s t : DecState} {u : Unit} (h : qdSlot env s = .ok u t) :
    t = s ∧ (env.loadMsg → s.msg.qdLen+1 ≤ dnsMaxQd) := by
  rw [qdSlot, bind_of_ok (get_run s)] at h
  by_cases hfull : env.loadMsg ∧ dnsMaxQd ≤ s.msg.qdLen
  · rw [when_pos hfull] at h
    cases h
  · rw [when_neg hfull] at h
    cases h
    exact ⟨rfl, fun hload => by
      have : ¬ dnsMaxQd ≤ s.msg.qdLen := fun hle => hfull ⟨hload, hle⟩
      omega⟩

theorem edits_ask {m : DnsMsg} (qd : DnsQd Ptr) (h : m.qdLen+1 ≤ dnsMaxQd) :
    Edits m { m with qd := qd, qdLen := m.qdLen+1, qd_fits := h } :=
  (Edit.ask h).edits.trans (Edit.question qd).edits

theorem edits_addQd {m : DnsMsg} (qd : DnsQd Ptr) (h : m.qdLen+1 ≤ dnsMaxQd) :
    Edits m (addQd m qd) := by
  unfold addQd
  rw [dif_pos h]
  exact edits_ask qd h

theorem edits_loadQd {s : DecState} (hfree : s.msg.qdLen+1 ≤ dnsMaxQd) (qtype qclass : UInt16) :
    Ends (fun t => Edits s.msg t.msg) (loadQd qtype qclass) s := by
  have hstr := keeps_msgStr touchFrame_allows.toAllowsFill 0
  refine ends_bind (fun h => (hstr.exit h).edits) fun text s1 h1 => ?_
  obtain ⟨rfl, -⟩ := msgStr_ok h1
  refine ends_bind (fun h => by cases h) fun _ s2 h2 => ?_
  cases h2
  cases hst : msgStoreStr s1.msg.store text with
  | none =>
    refine ends_bind (fun h => by cases h) fun _ s3 h3 => ?_
    cases h3
    refine ⟨fun h => (by cases h), fun h => ?_⟩
    cases h
    exact (Edit.question _).edits
  | some p =>
    refine ⟨fun h => ?_, fun h => by cases h⟩
    cases h
    have hstore : Edits s1.msg { s1.msg with store := p.2 } := (Edit.touch (.store hst)).edits
    exact hstore.trans (edits_addQd _ hfree)

theorem edits_qdBody (env : DecEnv) : Keeps editFrame (qdBody env) := by
  have hF := touchFrame_allows
  have hslot : Keeps touchFrame (qdSlot env) :=
    keeps_get.bind fun _ => keeps_when _ fun _ => keeps_exit_fail hF.toAllowsFill
  have hfill := touches_qdFill env
  refine edits_of_ends fun s => ?_
  rw [qdBody_eq]
  refine ends_bind (fun h => (hslot.exit h).edits) fun _ s1 h1 => ?_
  obtain ⟨rfl, hfree⟩ := qdSlot_ok h1
  refine ends_bind (fun h => (hfill.exit h).edits) fun p s2 h2 => ?_
  have htouch := hfill.ok h2
  have hload : Ends (fun t => Edits s2.msg t.msg)
      (when env.loadMsg (loadQd p.2.1 p.2.2)) s2 := by
    by_cases hl : env.loadMsg
    · rw [when_pos hl]
      exact edits_loadQd (by rw [htouch.counts.1]; exact hfree hl) _ _
    · rw [when_neg hl]
      refine ⟨fun h => ?_, fun h => by cases h⟩
      cases h
      exact .refl _
  have hlast : Keeps touchFrame (if env.needEmsg then msgStr 0 >>= fun name =>
      dnsWmsg env (qdLine name p.2.1 p.2.2) else pure (p.1 : ℤ)) := by
    split
    · exact (keeps_msgStr hF.toAllowsFill 0).bind fun _ => keeps_dnsWmsg hF.report env _
    · exact keeps_pure _
  refine ends_bind (fun h => htouch.edits.trans (hload.exit h)) fun _ s3 h3 => ?_
  have hmid := htouch.edits.trans (hload.ok h3)
  exact ⟨fun h => hmid.trans (hlast.ok h).edits, fun h => hmid.trans (hlast.exit h).edits⟩

theorem edits_dnsQdDecode (env : DecEnv) : Keeps editFrame (dnsQdDecode env) :=
  keeps_call (edits_qdBody env) (fun _ _ h => h) (fun _ _ _ h => h) fun _ _ => trivial

theorem edits_decodeHdr (env : DecEnv) : Keeps editFrame (decodeHdr env) := by
  have hF := touchFrame_allows
  have hflags (flags : UInt16) : Keeps editFrame (checkFlags flags) := by
    have hpush (group field : DnsLocation) (ec : ℤ) : Keeps editFrame (pushErr group field ec) :=
      keeps_modify fun s => editFrame_calls.back s 0 _ (editFrame_calls.err s group field ec)
    unfold checkFlags
    split
    · exact keeps_when _ fun _ => hpush _ _ _
    · exact keeps_when _ fun _ => hpush _ _ _
  have hbody : Keeps editFrame (hdrBody env) :=
    (keeps_when _ fun _ => edits_of_touches (keeps_retErr hF.toAllowsFill _ _ _)).bind fun _ =>
    (edits_of_touches (keeps_readBytes hF.toAllowsFill env _ _)).bind fun _ =>
    (keeps_modify fun _ => (Edit.header _).edits).bind fun _ =>
    (edits_of_touches (keeps_advance hF.toAllowsFill _)).bind fun _ =>
    (keeps_when _ fun _ => keeps_exit fun _ => Edits.refl _).bind fun _ =>
    (keeps_modify fun _ => Edits.refl _).bind fun _ =>
    (hflags _).bind fun _ => edits_of_touches (keeps_dnsWmsg hF.report env _)
  exact keeps_call hbody (fun _ _ h => h) (fun _ _ _ h => h) fun _ _ => trivial

theorem edits_decodeMsg (env : DecEnv) : Keeps editFrame (decodeMsg env) := by
  have hC := editFrame_calls
  have hfront : Keeps editFrame (decodeFront env) :=
    (keeps_modify fun _ => Edit.reset.edits).bind fun _ =>
    (keeps_orReturn hC (edits_decodeHdr env)).bind fun _ =>
    keeps_orReturn hC (keeps_decodeQd hC (edits_dnsQdDecode env))
  have hsize : Keeps editFrame (sizeCheck env) := by
    refine keeps_get.bind fun _ => ?_
    split
    · exact edits_of_touches (keeps_dnsWmsg touchFrame_allows.report env _)
    · exact keeps_pure _
  exact keeps_call (hfront.bind fun _ => (keeps_decodeSects hC (edits_dnsRrDecode env) _).bind
    fun _ => hsize) (fun _ _ h => h) (fun _ _ _ h => h) fun _ _ => trivial

def touchFill : Frame DnsMsg ℤ Empty where
  keep := Touches
  leave s _ t := Touches s t
  raise _ := True
  refl _ := Relation.ReflTransGen.refl
  trans h1 h2 := Relation.ReflTransGen.trans h1 h2
  lift h1 h2 := Relation.ReflTransGen.trans h1 h2

theorem touchFill_fills (sc : Sect) : Fills sc touchFill where
  store _ _ _ _ h := Relation.ReflTransGen.single (.store h)
  slot _ _ hf := Relation.ReflTransGen.single (.slot sc hf)
  fail _ := Relation.ReflTransGen.refl

theorem edits_dnsSectAddRr (sc : Sect) (src : DnsRr Str) (m : DnsMsg) :
    Ends (Edits m) (dnsSectAddRr sc src) m := by
  have hfill := keeps_sectFill (touchFill_fills sc) src
  rw [dnsSectAddRr_eq]
  refine ends_bind (fun h => by cases h) fun _ m1 h1 => ?_
  cases h1
  by_cases hfull : dnsMaxRr ≤ (m.sect sc).count
  · rw [when_pos hfull]
    refine ends_bind (fun h => ?_) fun _ _ h => by cases h
    cases h
    exact .refl _
  · rw [when_neg hfull]
    refine ends_bind (fun h => by cases h) fun _ m2 h2 => ?_
    cases h2
    refine ends_bind (fun h => (hfill.exit h).edits) fun _ m3 h3 => ?_
    have htouch : Touches m m3 := hfill.ok h3
    have hcount : (m3.sect sc).count+1 ≤ dnsMaxRr := by
      rw [htouch.counts.2 sc]
      omega
    refine ⟨fun h => ?_, fun h => by cases h⟩
    cases h
    exact htouch.edits.trans (Edit.count sc hcount).edits

theorem edits_dnsAddRr (m : DnsMsg) (sc : ℤ) (src : Option (DnsRr Str)) :
    Edits m (dnsAddRr m sc src).2 := by
  unfold dnsAddRr
  cases sectOfCode sc with
  | none => exact .refl _
  | some sect =>
    cases src with
    | none => exact .refl _
    | some rr =>
      have hends := edits_dnsSectAddRr sect rr m
      dsimp only
      cases hrun : dnsSectAddRr sect rr m with
      | ok rc t => exact hends.ok hrun
      | exit rc t => exact hends.exit hrun
      | fault c => exact c.elim

theorem edits_dnsAddQdn (m : DnsMsg) (qname : Bytes) (qtype qclass : UInt16) :
    Edits m (dnsAddQdn m qname qtype qclass).2 := by
  unfold dnsAddQdn
  split
  · next h =>
    cases hst : msgStoreStr m.store qname with
    | none => exact (Edit.question _).edits
    | some p =>
      have hstore : Edits m { m with store := p.2 } := (Edit.touch (.store hst)).edits
      exact hstore.trans (edits_ask (m := { m with store := p.2 }) _ h)
  · exact .refl _

inductive Call where
  | init (id flags : UInt16)
  | reset
  | addQdn (qname : Bytes) (qtype qclass : UInt16)
  | addRr (sc : ℤ) (src : Option (DnsRr Str))
  | decode (pkt : Bytes)

/-- The code and the message of a call. A decode that reads outside its packet has none. -/
def Call.run (m : DnsMsg) : Call → Option (ℤ × DnsMsg)
  | .init id flags => some (0, dnsMsgInit m id flags)
  | .reset => some (0, dnsMsgReset m)
  | .addQdn qname qtype qclass => some (dnsAddQdn m qname qtype qclass)
  | .addRr sc src => some (dnsAddRr m sc src)
  | .decode pkt => (dnsMsgDecode m pkt).result.map fun p => (p.1, p.2.msg)

def runCalls (m : DnsMsg) : List Call → Option (List ℤ × DnsMsg)
  | [] => some ([], m)
  | c :: cs => (c.run m).bind fun p => (runCalls p.2 cs).map fun q => (p.1 :: q.1, q.2)

theorem edits_call {m m' : DnsMsg} {c : Call} {rc : ℤ} (h : c.run m = some (rc, m')) :
    Edits m m' := by
  cases c with
  | init id flags =>
    cases h
    exact (Edit.header _).edits
  | reset =>
    cases h
    exact Edit.reset.edits
  | addQdn qname qtype qclass =>
    rw [show m' = (dnsAddQdn m qname qtype qclass).2 from
      (congrArg Prod.snd (Option.some.inj h)).symm]
    exact edits_dnsAddQdn m qname qtype qclass
  | addRr sc src =>
    rw [show m' = (dnsAddRr m sc src).2 from (congrArg Prod.snd (Option.some.inj h)).symm]
    exact edits_dnsAddRr m sc src
  | decode pkt =>
    obtain ⟨rc', s, hrun, hp⟩ := Outcome.eq_ok h
    cases hp
    exact (edits_decodeMsg (loadEnv pkt)).ok hrun

theorem edits_runCalls {m m' : DnsMsg} {cs : List Call} {rcs : List ℤ}
    (h : runCalls m cs = some (rcs, m')) : Edits m m' := by
  induction cs generalizing m rcs with
  | nil =>
    cases h
    exact .refl _
  | cons c cs ih =>
    obtain ⟨p, hp, h⟩ := Option.bind_eq_some_iff.mp h
    obtain ⟨q, hq, h⟩ := Option.map_eq_some_iff.mp h
    cases h
    exact (edits_call hp).trans (ih hq)

/-- Every string of the log stands where it was stored. -/
def Intact (st : NameStore) : Prop := ∀ e ∈ st.log, Stored st (.ref e.1) e.2

theorem msgStoreStr_log {st st' : NameStore} {str : Bytes} {off : ℕ}
    (h : msgStoreStr st str = some (off, st')) : st'.log = st.log ++ [(off, str)] := by
  unfold msgStoreStr at h
  split_ifs at h
  cases h
  rfl

theorem intact_store {st st' : NameStore} {str : Bytes} {off : ℕ}
    (h : msgStoreStr st str = some (off, st')) (hst : Intact st) : Intact st' := by
  obtain ⟨hnew, hlater, -, -⟩ := msgStoreStr_some h
  intro e he
  rw [msgStoreStr_log h] at he
  rcases List.mem_append.mp he with he | he
  · exact hlater.keep _ _ (hst e he)
  · obtain rfl := List.mem_singleton.mp he
    exact hnew

theorem intact_edit (m m' : DnsMsg) (h : Edit m m') (hm : Intact m.store) : Intact m'.store := by
  cases h with
  | touch h =>
    cases h with
    | store h => exact intact_store h hm
    | slot sc hf => cases sc <;> exact hm
  | header hdr => exact hm
  | question qd => exact hm
  | ask h => exact hm
  | count sc h =>
    rw [countUp_store]
    exact hm
  | reset =>
    intro e he
    cases he

/-- After any history every stored string is intact and every count is within its bound.
The counts were raised by guarded writes only. -/
theorem store_intact (base : ℕ) (cs : List Call) {rcs : List ℤ} {m : DnsMsg}
    (h : runCalls (zeroMsg base) cs = some (rcs, m)) :
    Edits (zeroMsg base) m ∧ m.store.len ≤ dnsMaxPdusize ∧ m.qdLen ≤ dnsMaxQd ∧
      (∀ sc, (m.sect sc).count ≤ dnsMaxRr) ∧ Intact m.store := by
  have hedits := edits_runCalls h
  refine ⟨hedits, m.store.fits, m.qd_fits, fun sc => (m.sect sc).fits, ?_⟩
  refine hedits.invariant (I := fun m => Intact m.store) intact_edit ?_
  intro e he
  cases he

/-- A question added, a packet with a question loaded over it, a record added and one refused. -/
def loadThenAdd : List Call :=
  let name (c : UInt8) (h : (0 : UInt8) ∉ [c]) : Str := some ⟨[c], h⟩
  let rr : DnsRr Str := { zeroRr (none : Str) with
    name := name 98 (by decide)
    rrType := 2
    rdata := { zeroRdata none with nsName := name 99 (by decide) } }
  [.addQdn [100] 1 1, .decode [0x12, 0x34, 1, 0, 0, 1, 0, 0, 0, 0, 0, 0, 1, 97, 0, 0, 1, 0, 1],
    .addRr 1 (some rr), .addRr 4 (some rr)]

theorem loadThenAdd_intact : ∃ m, runCalls (zeroMsg 0) loadThenAdd = some ([0, 0, 0, -1], m) ∧
    m.store.log = [(0, [97]), (2, [98]), (4, [99])] ∧ m.an.count = 1 ∧ Intact m.store := by
  have hrun : (runCalls (zeroMsg 0) loadThenAdd).map
      (fun p => (p.1, p.2.store.log, p.2.an.count)) =
      some ([0, 0, 0, -1], [(0, [97]), (2, [98]), (4, [99])], 1) := by decide +kernel
  obtain ⟨⟨rcs, m⟩, hp, hf⟩ := Option.map_eq_some_iff.mp hrun
  simp only [Prod.mk.injEq] at hf
  obtain ⟨rfl, hlog, hcount⟩ := hf
  exact ⟨m, hp, hlog, hcount, (store_intact 0 loadThenAdd hp).2.2.2.2⟩

def Sealed (st : NameStore) : Prop := st.len = 0 ∨ st.mem[st.len-1]? = some 0

theorem msgStoreStr_mem {st st' : NameStore} {str : Bytes} {off : ℕ}
    (h : msgStoreStr st str = some (off, st')) : st'.mem = patch st.mem st.len (str ++ [0]) ∧
      st'.len = st.len+str.length+1 ∧ st.len+(str ++ [0]).length ≤ st.mem.length ∧
      str.length ≤ dnsNameMaxstr := by
  unfold msgStoreStr at h
  split_ifs at h with h1 h2
  cases h
  have hsize := st.size
  refine ⟨rfl, rfl, ?_, by omega⟩
  rw [List.length_append, List.length_singleton]
  omega

theorem sealed_store {st st' : NameStore} {str : Bytes} {off : ℕ}
    (h : msgStoreStr st str = some (off, st')) : Sealed st' := by
  obtain ⟨hmem, hlen, hfit, -⟩ := msgStoreStr_mem h
  refine .inr ?_
  rw [hmem, hlen, get_patch hfit, if_pos (by simp)]
  simp

theorem tame_store {st st' : NameStore} {str : Bytes} {off : ℕ}
    (h : msgStoreStr st str = some (off, st')) (hs : Sealed st) (ht : Tame st) : Tame st' := by
  obtain ⟨hmem, hlen, hfit, hstr⟩ := msgStoreStr_mem h
  have hpatch : (str ++ [0]).length = str.length+1 := by simp
  rw [hpatch] at hfit
  intro i
  rw [hmem]
  by_cases h1 : i < st.len
  · -- A string that was there before ends before the new one.
    have hz : st.mem[st.len-1]? = some 0 := hs.resolve_left (by omega)
    have hz1 : (st.mem.drop i)[st.len-1-i]? = some 0 := by
      rw [List.getElem?_drop, show i+(st.len-1-i) = st.len-1 by omega, hz]
    have hz2 : ((patch st.mem st.len (str ++ [0])).drop i)[st.len-1-i]? = some 0 := by
      rw [List.getElem?_drop, show i+(st.len-1-i) = st.len-1 by omega,
        get_patch (by rw [hpatch]; omega), if_neg (by omega), hz]
    have hsame : ((patch st.mem st.len (str ++ [0])).drop i).take (st.len-1-i+1) =
        (st.mem.drop i).take (st.len-1-i+1) :=
      slice_patch_before st.mem st.len _ i _ (by omega) (by omega)
    rw [← cstr_take_of_zero hz2, hsame, cstr_take_of_zero hz1]
    exact ht i
  by_cases h2 : i ≤ st.len+str.length
  · have hz : ((patch st.mem st.len (str ++ [0])).drop i)[st.len+str.length-i]? = some 0 := by
      rw [List.getElem?_drop, show i+(st.len+str.length-i) = st.len+str.length by omega,
        get_patch (by rw [hpatch]; omega), if_pos (by omega)]
      simp
    have := cstr_length_le_of_zero hz
    omega
  · have hdrop : (patch st.mem st.len (str ++ [0])).drop i = st.mem.drop i := by
      refine List.ext_getElem? fun j => ?_
      rw [List.getElem?_drop, List.getElem?_drop, get_patch (by rw [hpatch]; omega),
        if_neg (by omega)]
    rw [hdrop]
    exact ht i

def Sized (m : DnsMsg) : Prop :=
  ∀ sc, ∀ r ∈ (m.sect sc).slots, r.rdata.txtStr.length = dnsMaxTxt

theorem sized_of_slots {m m' : DnsMsg} (h : ∀ sc, (m'.sect sc).slots = (m.sect sc).slots)
    (hm : Sized m) : Sized m' := by
  intro sc r hr
  rw [h] at hr
  exact hm sc r hr

theorem mem_of_mem_modify {α : Type} {f : α → α} {l : List α} {i : ℕ} {x : α}
    (h : x ∈ l.modify i f) : x ∈ l ∨ ∃ y ∈ l, x = f y := by
  obtain ⟨j, hj⟩ := List.mem_iff_getElem?.mp h
  rw [List.getElem?_modify] at hj
  obtain ⟨y, hy, rfl⟩ := Option.map_eq_some_iff.mp hj
  have hmem := List.mem_of_getElem? hy
  split
  · exact .inr ⟨y, hmem, rfl⟩
  · exact .inl hmem

theorem sized_slot {m : DnsMsg} (hm : Sized m) (sc : Sect) :
    (slot m sc).rdata.txtStr.length = dnsMaxTxt := by
  rw [slot, List.getD_eq_getElem?_getD]
  cases h : (m.sect sc).slots[(m.sect sc).count]? with
  | none => exact List.length_replicate
  | some r => exact hm sc r (List.mem_of_getElem? h)

theorem sized_modifySlot {m : DnsMsg} (hm : Sized m) {f : DnsRr Ptr → DnsRr Ptr}
    (hf : KeepsTxt f) (sc : Sect) : Sized (m.modifySlot sc f) := by
  have hself (r : DnsRr Ptr) (hr : r ∈ (m.sect sc).slots.modify (m.sect sc).count f) :
      r.rdata.txtStr.length = dnsMaxTxt := by
    rcases mem_of_mem_modify hr with hr | ⟨r', hr', rfl⟩
    · exact hm sc r hr
    · rw [hf]
      exact hm sc r' hr'
  intro sc' r hr
  by_cases hsc : sc' = sc
  · subst hsc
    cases sc' <;> exact hself r hr
  · refine hm sc' r ?_
    cases sc <;> cases sc' <;> first | exact hr | exact absurd rfl hsc

@[simp] theorem slots_countUp (m : DnsMsg) (sc sc' : Sect) :
    ((m.countUp sc).sect sc').slots = (m.sect sc').slots := by
  unfold DnsMsg.countUp
  dsimp only
  split
  · cases sc <;> cases sc' <;> rfl
  · rfl

structure Encodable (m : DnsMsg) : Prop where
  tame : Tame m.store
  sealed : Sealed m.store
  sized : Sized m

theorem encodable_edit (m m' : DnsMsg) (h : Edit m m') (hm : Encodable m) : Encodable m' := by
  obtain ⟨h1, h2, h3⟩ := hm
  cases h with
  | touch h =>
    cases h with
    | store h => exact ⟨tame_store h h2 h1, sealed_store h,
        sized_of_slots (fun sc => by cases sc <;> rfl) h3⟩
    | slot sc hf =>
      refine ⟨?_, ?_, sized_modifySlot h3 hf sc⟩
      · cases sc <;> exact h1
      · cases sc <;> exact h2
  | header hdr => exact ⟨h1, h2, sized_of_slots (fun sc => by cases sc <;> rfl) h3⟩
  | question qd => exact ⟨h1, h2, sized_of_slots (fun sc => by cases sc <;> rfl) h3⟩
  | ask h => exact ⟨h1, h2, sized_of_slots (fun sc => by cases sc <;> rfl) h3⟩
  | count sc h =>
    refine ⟨?_, ?_, sized_of_slots (slots_countUp m sc) h3⟩
    · rw [countUp_store]
      exact h1
    · rw [countUp_store]
      exact h2
  | reset => exact ⟨h1, .inl rfl, sized_of_slots (fun sc => by cases sc <;> rfl) h3⟩

theorem encodable_zero (base : ℕ) : Encodable (zeroMsg base) := by
  refine ⟨fun off => ?_, .inl rfl, fun sc r hr => ?_⟩
  · have hdrop : (zeroMsg base).store.mem.drop off = List.replicate (dnsMaxPdusize-off) 0 :=
      List.drop_replicate
    rw [hdrop]
    cases dnsMaxPdusize-off with
    | zero => exact Nat.zero_le _
    | succ k =>
      rw [List.replicate_succ]
      exact Nat.zero_le _
  · have hz : r = zeroRr .null := by
      cases sc <;> exact List.eq_of_mem_replicate hr
    rw [hz]
    exact List.length_replicate

theorem encodable_runCalls {base : ℕ} {cs : List Call} {rcs : List ℤ} {m : DnsMsg}
    (h : runCalls (zeroMsg base) cs = some (rcs, m)) : Encodable m :=
  (edits_runCalls h).invariant encodable_edit (encodable_zero base)

end DnsPkt.MessageHistory
