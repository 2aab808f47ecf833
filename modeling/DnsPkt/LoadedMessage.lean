import DnsPkt.LoadedRecord
import DnsPkt.MessageHistory

/-!
# Messages that are loaded completely

A section loop of the loader ends with the first entry that is loaded, since
its positive length is taken for an error. So a section is complete only
when it has at most one entry, and that entry fits.
-/

set_option autoImplicit false

namespace DnsPkt.LoadedMessage
open DnsPkt.CheckedRun DnsPkt.CheckedRun.Run DnsPkt.Octets DnsPkt.Protocol
open DnsPkt.MessageStore DnsPkt.MessageSlots DnsPkt.MessageBuild DnsPkt.RecordDecoder
open DnsPkt.MessageDecoder DnsPkt.RecordRun DnsPkt.RecordEntry DnsPkt.RecordView
open DnsPkt.RecordFrame DnsPkt.MessageRun DnsPkt.AcceptedRun DnsPkt.PacketBounds
open DnsPkt.MessageHistory DnsPkt.LoaderVerdict DnsPkt.LoadedRecord DnsPkt.NameDecoder
open DnsPkt.ReportText

structure Same (sc : Sect) (m m' : DnsMsg) : Prop where
  hdr : m'.hdr = m.hdr
  qd : m'.qd = m.qd
  qdLen : m'.qdLen = m.qdLen
  records : records m' sc = records m sc

section Same

variable {sc sc' : Sect} {m m' : DnsMsg}

theorem Same.refl (sc : Sect) (m : DnsMsg) : Same sc m m := ⟨rfl, rfl, rfl, rfl⟩

theorem Same.trans {m'' : DnsMsg} (h1 : Same sc m m') (h2 : Same sc m' m'') : Same sc m m'' :=
  ⟨h2.hdr.trans h1.hdr, h2.qd.trans h1.qd, h2.qdLen.trans h1.qdLen, h2.records.trans h1.records⟩

/-- A write to a free slot is not seen in the records of any section. -/
theorem records_modifySlot (m : DnsMsg) (f : DnsRr Ptr → DnsRr Ptr) :
    records (m.modifySlot sc' f) sc = records m sc := by
  by_cases h : sc = sc'
  · subst h
    cases sc <;> exact take_modify_self _ _ f
  · cases sc <;> cases sc' <;> first | rfl | exact absurd rfl h

theorem Touch.same (h : Touch m m') (sc : Sect) : Same sc m m' := by
  cases h with
  | store h => cases sc <;> exact ⟨rfl, rfl, rfl, rfl⟩
  | slot sc' hf => exact ⟨hdr_modifySlot m sc' _, by cases sc' <;> rfl, by cases sc' <;> rfl,
      records_modifySlot m _⟩

theorem same_countUp (h : sc' ≠ sc) (m : DnsMsg) : Same sc' m (m.countUp sc) :=
  ⟨hdr_countUp m sc, (countUp_qd m sc).1, (countUp_qd m sc).2, countUp_records_ne h⟩

def sameFrame (sc : Sect) : Frame DecState ℤ Fault where
  keep s t := Same sc s.msg t.msg
  leave s _ t := Same sc s.msg t.msg
  raise _ := True
  refl s := .refl sc s.msg
  trans h1 h2 := h1.trans h2
  lift h1 h2 := h1.trans h2

theorem same_err (sc : Sect) (group field : DnsLocation) (ec : ℤ) (s : DecState) :
    Same sc s.msg (dnsDecErr group field ec s).2.msg := by
  rw [dnsDecErr_msg]
  exact .refl sc s.msg

theorem sameFrame_allows (sc : Sect) : Allows 0 (sameFrame sc) where
  put s w b _ := by
    simp only [sameFrame, put_msg]
    exact .refl sc s.msg
  move s _ _ := .refl sc s.msg
  load _ _ h := Touch.same h sc
  err s group field ec := same_err sc group field ec s
  fail s := .refl sc s.msg
  report s _ := .refl sc s.msg
  reads _ := trivial
  writes _ := trivial
  strings _ := trivial

theorem sameFrame_calls (sc : Sect) : Calls (sameFrame sc) where
  err s group field ec := same_err sc group field ec s
  ret s _ := .refl sc s.msg
  back _ _ _ h := h

theorem decodeSect_same (env : DecEnv) (h : sc' ≠ sc) :
    Keeps (sameFrame sc') (decodeSect env sc) := by
  have hentry : Keeps (sameFrame sc') (dnsRrDecode env sc) :=
    keeps_call (keeps_rrBody (sameFrame_allows sc') env sc rfl (fun _ _ s => .refl sc' s.msg)
      fun s => same_countUp h s.msg) (fun _ _ h => h) (fun _ _ _ h => h) fun _ _ => trivial
  exact keeps_get.bind fun _ => keeps_rows (sameFrame_calls sc') hentry _ _

def countsFrame : Frame DecState ℤ Fault where
  keep s t := ∀ sc, (t.msg.sect sc).count = (s.msg.sect sc).count
  leave s _ t := ∀ sc, (t.msg.sect sc).count = (s.msg.sect sc).count
  raise _ := True
  refl _ _ := rfl
  trans h1 h2 sc := (h2 sc).trans (h1 sc)
  lift h1 h2 sc := (h2 sc).trans (h1 sc)

theorem countsFrame_allows : Allows 0 countsFrame where
  put s w b _ sc := by rw [put_msg]
  move _ _ _ _ := rfl
  load _ _ h := h.counts.2
  err s group field ec sc := by rw [dnsDecErr_msg]
  fail _ _ := rfl
  report _ _ _ := rfl
  reads _ := trivial
  writes _ := trivial
  strings _ := trivial

theorem countsFrame_calls : Calls countsFrame where
  err s group field ec := countsFrame_allows.err s group field ec
  ret _ _ _ := rfl
  back _ _ _ h := h

theorem decodeQd_counts (env : DecEnv) : Keeps countsFrame (decodeQd env) := by
  have hentry : Keeps countsFrame (dnsQdDecode env) :=
    keeps_call (keeps_qdBody countsFrame_allows (fun s qd n h sc => by cases sc <;> rfl) env)
      (fun _ _ h => h) (fun _ _ _ h => h) fun _ _ => trivial
  exact keeps_decodeQd countsFrame_calls hentry

end Same

section Rows

variable {x : Dec ℤ} {μ : DnsMsg → ℕ} (hpos : Gives (0 < ·) x)
  (hok : ∀ s rc t, x s = .ok rc t → μ t.msg ≤ μ s.msg+1)
  (hexit : ∀ s c t, x s = .exit c t → μ t.msg = μ s.msg) (loc : DnsLocation)

include hpos hok hexit

theorem rowStep_loaded {i : ℕ} {s t : DecState} :
    (∀ a, rowStep (call x) loc i s = .ok a t → μ t.msg = μ s.msg) ∧
      (∀ c, rowStep (call x) loc i s = .exit c t → μ t.msg ≤ μ s.msg+1) := by
  constructor
  · intro a h
    rcases (call_ok _ _ _ _).mp (rowStep_ok.mp h) with h | h
    · exact absurd (hpos s 0 t h) (lt_irrefl 0)
    · exact hexit s 0 t h
  · intro c h
    rcases (bind_exit _ _ _ _ _).mp h with h | ⟨rc, m, hm, h⟩
    · exact absurd h (call_ne_exit _ _ _ _)
    have hmsg : t.msg = m.msg := by
      by_cases hrc : rc ≠ 0
      · rw [when_pos hrc] at h
        cases h
        exact dnsDecErr_msg _ _ _ m
      · rw [when_neg hrc] at h
        cases h
    rw [hmsg]
    rcases (call_ok _ _ _ _).mp hm with hm | hm
    · exact hok s rc m hm
    · exact (hexit s rc m hm).le.trans (Nat.le_succ _)

theorem loop_loaded (i n : ℕ) {s t : DecState} :
    (∀ a, loop (rowStep (call x) loc) i n s = .ok a t → μ t.msg ≤ μ s.msg+1) ∧
      (∀ c, loop (rowStep (call x) loc) i n s = .exit c t → μ t.msg ≤ μ s.msg+1) := by
  induction n generalizing i s with
  | zero =>
    constructor
    · intro a h
      cases h
      exact Nat.le_succ _
    · intro c h
      cases h
  | succ n ih =>
    cases hstep : rowStep (call x) loc i s with
    | ok a m =>
      rw [loop_succ_of_ok hstep, ← (rowStep_loaded hpos hok hexit loc).1 a hstep]
      exact ih (i+1)
    | exit e m =>
      have hloop : loop (rowStep (call x) loc) i (n+1) s = .exit e m := bind_of_exit hstep _
      rw [hloop]
      constructor
      · intro a h
        cases h
      · intro c h
        cases h
        exact (rowStep_loaded hpos hok hexit loc).2 e hstep
    | fault d =>
      have hloop : loop (rowStep (call x) loc) i (n+1) s = .fault d := bind_of_fault hstep _
      rw [hloop]
      constructor
      · intro a h
        cases h
      · intro c h
        cases h

/-- However many entries there are, at most one is loaded. -/
theorem rows_loaded {n : ℕ} {c : ℤ} {s t : DecState} (h : rows (call x) loc n s = .ok c t) :
    μ t.msg ≤ μ s.msg+1 := by
  rcases (call_ok _ _ _ _).mp h with h | h
  · obtain ⟨a, m, hl, h⟩ := (bind_ok _ _ _ _ _).mp h
    cases h
    exact (loop_loaded hpos hok hexit loc 0 n).1 a hl
  · rcases (bind_exit _ _ _ _ _).mp h with h | ⟨a, m, -, h⟩
    · exact (loop_loaded hpos hok hexit loc 0 n).2 c h
    · cases h

/-- Where the only entry was loaded, its decode ran to the end. -/
theorem rows_one {c : ℤ} {s t : DecState} (h : rows (call x) loc 1 s = .ok c t)
    (hμ : μ t.msg = μ s.msg+1) :
    ∃ rc w, x s = .ok rc w ∧ t = (dnsDecErr .pdu loc (0+dnsEcIsrow) w).2 := by
  have hloop : loop (rowStep (call x) loc) 0 1 = rowStep (call x) loc 0 :=
    bind_pure _
  rcases (call_ok _ _ _ _).mp h with h | h
  · obtain ⟨a, m, hl, h⟩ := (bind_ok _ _ _ _ _).mp h
    cases h
    rw [hloop] at hl
    have := (rowStep_loaded hpos hok hexit loc).1 a hl
    omega
  · rw [hloop] at h
    rcases (bind_exit _ _ _ _ _).mp h with h | ⟨a, m, -, h⟩
    · rcases (bind_exit _ _ _ _ _).mp h with h | ⟨rc, w, hw, h⟩
      · exact absurd h (call_ne_exit _ _ _ _)
      rcases (call_ok _ _ _ _).mp hw with hw | hw
      · refine ⟨rc, w, hw, ?_⟩
        rw [when_pos (hpos s rc w hw).ne'] at h
        cases h
        rfl
      · by_cases hrc : rc ≠ 0
        · rw [when_pos hrc] at h
          cases h
          rw [dnsDecErr_msg, hexit s rc w hw] at hμ
          omega
        · rw [when_neg hrc] at h
          cases h
    · cases h

omit hok hexit

theorem rows_taken {rc : ℤ} {s w : DecState} (h : x s = .ok rc w)
    (hroom : w.dec.errs.length < dnsMaxEmsg) :
    rows (call x) loc 1 s = .ok 0 (dnsDecErr .pdu loc (0+dnsEcIsrow) w).2 := by
  have hstep : rowStep (call x) loc 0 s = .exit 0 (dnsDecErr .pdu loc (0+dnsEcIsrow) w).2 := by
    have herr : (dnsDecErr .pdu loc (0+dnsEcIsrow) w).1 = 0 := by
      rw [dnsDecErr, if_neg (Nat.not_le.mpr hroom)]
    rw [rowStep, bind_of_ok ((call_ok _ _ _ _).mpr (.inl h)), when_pos (hpos s rc w h).ne', retErr]
    exact congrArg (Outcome.exit · _) herr
  refine (call_ok _ _ _ _).mpr (.inr (bind_of_exit ?_ _))
  exact bind_of_exit hstep _

end Rows

theorem countUp_sect_ne {sc sc' : Sect} (h : sc' ≠ sc) (m : DnsMsg) :
    (m.countUp sc).sect sc' = m.sect sc' := by
  unfold DnsMsg.countUp
  dsimp only
  split
  · cases sc <;> cases sc' <;> first | rfl | exact absurd rfl h
  · rfl

theorem countUp_count_le (sc : Sect) (m : DnsMsg) :
    ((m.countUp sc).sect sc).count ≤ (m.sect sc).count+1 := by
  unfold DnsMsg.countUp
  dsimp only
  split
  · cases sc <;> exact le_rfl
  · exact Nat.le_succ _

theorem length_records (m : DnsMsg) (sc : Sect) : (records m sc).length = (m.sect sc).count := by
  rw [records, List.length_take, (m.sect sc).size]
  exact Nat.min_eq_left (m.sect sc).fits

section Entry

variable {pkt : Bytes} {sc : Sect} {s t : DecState}

theorem rrFill_count (env : DecEnv) : Keeps touchFrame (rrFill env sc) :=
  keeps_rrFill touchFrame_allows.toAllowsFill env sc rfl fun _ _ _ => Relation.ReflTransGen.refl

theorem rrBody_counts {rc : ℤ} (h : rrBody (loadEnv pkt) sc s = .ok rc t) :
    (t.msg.sect sc).count ≤ (s.msg.sect sc).count+1 := by
  rw [rrBody_eq] at h
  obtain ⟨_, s1, h1, hfill⟩ := (bind_ok _ _ _ _ _).mp h
  rw [(rrSlot_ok h1).1] at hfill
  obtain ⟨p, s2, h2, hcount⟩ := (bind_ok _ _ _ _ _).mp hfill
  rw [← ((rrFill_count (loadEnv pkt)).ok h2).counts.2 sc]
  cases hcount
  exact countUp_count_le sc s2.msg

theorem rrBody_refused {c : ℤ} (h : rrBody (loadEnv pkt) sc s = .exit c t) :
    (t.msg.sect sc).count = (s.msg.sect sc).count := by
  rw [rrBody_eq] at h
  have hslot : Keeps touchFrame (rrSlot (loadEnv pkt) sc) :=
    keeps_rrSlot touchFrame_allows.toAllowsFill _ sc
  rcases (bind_exit _ _ _ _ _).mp h with h | ⟨_, s1, h1, hfill⟩
  · exact (hslot.exit h).counts.2 sc
  rw [(rrSlot_ok h1).1] at hfill
  rcases (bind_exit _ _ _ _ _).mp hfill with hleft | ⟨p, s2, -, hcount⟩
  · exact ((rrFill_count (loadEnv pkt)).exit hleft).counts.2 sc
  · cases hcount

/-- What makes a section complete: at most one record, which fits the free slot and the store. -/
structure SectFits (sc : Sect) (r : DnsRr Ptr) (st : NameStore) (vs : List RrView) (fin : ℕ) :
    Prop where
  one : vs.length ≤ 1
  fits : ∀ v ∈ vs, Fits sc r v fin
  clean : Clean st (vs.flatMap loadedStrs)

structure SectLoaded (sc : Sect) (vs : List RrView) (fin : ℕ) (s t : DecState) : Prop where
  hdr : t.msg.hdr = s.msg.hdr
  qd : t.msg.qd = s.msg.qd
  qdLen : t.msg.qdLen = s.msg.qdLen
  others : ∀ sc', sc' ≠ sc → t.msg.sect sc' = s.msg.sect sc'
  later : Later s.msg.store t.msg.store
  len : t.msg.store.len = s.msg.store.len+storeSize (vs.flatMap loadedStrs)
  errs : t.dec.errs.length ≤ s.dec.errs.length+1
  offset : sc ≠ .ar → t.dec.offset = fin
  shows : ∀ st, Later t.msg.store st → List.Forall₂ (RrShows st) (records t.msg sc) vs

theorem clean_nil (st : NameStore) : Clean st [] :=
  ⟨fun _ h => absurd h List.not_mem_nil, st.fits, fun _ h => absurd h List.not_mem_nil⟩

theorem length_dnsDecErr_le (group field : DnsLocation) (ec : ℤ) (s : DecState) :
    (dnsDecErr group field ec s).2.dec.errs.length ≤ s.dec.errs.length+1 := by
  unfold dnsDecErr
  split
  · exact Nat.le_succ _
  · exact (List.length_append ..).le

theorem dnsDecErr_offset (group field : DnsLocation) (ec : ℤ) (s : DecState) :
    (dnsDecErr group field ec s).2.dec.offset = s.dec.offset := by
  unfold dnsDecErr
  split <;> rfl

theorem sect_count_le {c : ℤ} (hrun : decodeSect (loadEnv pkt) sc s = .ok c t) :
    (t.msg.sect sc).count ≤ (s.msg.sect sc).count+1 := by
  rw [decodeSect, bind_of_ok (get_run s)] at hrun
  exact rows_loaded (μ := fun m => (m.sect sc).count) (rrBody_positive (loadEnv_quiet pkt) sc)
    (fun _ _ _ h => rrBody_counts h) (fun _ _ _ h => rrBody_refused h) _ hrun

/-- Where the only record of a section was counted, its decode ran to the end. -/
theorem sect_taken {c : ℤ} (hrun : decodeSect (loadEnv pkt) sc s = .ok c t)
    (hn : sectCount s.msg.hdr sc = 1) (hcount : (t.msg.sect sc).count = (s.msg.sect sc).count+1) :
    ∃ rc w, rrBody (loadEnv pkt) sc s = .ok rc w ∧ t.msg = w.msg := by
  rw [decodeSect, bind_of_ok (get_run s), hn] at hrun
  obtain ⟨rc, w, hw, rfl⟩ := rows_one (μ := fun m => (m.sect sc).count)
    (rrBody_positive (loadEnv_quiet pkt) sc) (fun _ _ _ h => rrBody_counts h)
    (fun _ _ _ h => rrBody_refused h) _ hrun hcount
  exact ⟨rc, w, hw, dnsDecErr_msg _ _ _ w⟩

variable {vs : List RrView} {fin : ℕ} (hat : RecordsAt pkt s.dec.offset vs fin)
  (hn : vs.length = sectCount s.msg.hdr sc) (hcount : (s.msg.sect sc).count = 0)
  (hlen : (slot s.msg sc).rdata.txtStr.length = dnsMaxTxt)

include hat hn hcount

section

include hlen

theorem sect_loaded (hroom : s.dec.errs.length < dnsMaxEmsg)
    (hfits : SectFits sc (slot s.msg sc) s.msg.store vs fin) :
    ∃ t, decodeSect (loadEnv pkt) sc s = .ok 0 t ∧ SectLoaded sc vs fin s t := by
  rw [decodeSect, bind_of_ok (get_run s), ← hn]
  cases vs with
  | nil =>
    obtain rfl : fin = s.dec.offset := hat
    refine ⟨s, rfl, rfl, rfl, rfl, fun _ _ => rfl, .refl _, rfl, Nat.le_succ _, fun _ => rfl, ?_⟩
    intro st _
    rw [List.eq_nil_of_length_eq_zero ((length_records s.msg sc).trans hcount)]
    exact .nil
  | cons v rest =>
    obtain rfl : rest = [] :=
      List.eq_nil_of_length_eq_zero (Nat.le_zero.mp (Nat.le_of_succ_le_succ hfits.one))
    obtain ⟨mid, hat, rfl⟩ := hat
    have hfit := hfits.fits v List.mem_cons_self
    have hclean : Clean s.msg.store (loadedStrs v) := by
      have := hfits.clean
      rwa [List.flatMap_singleton] at this
    have hfree : (s.msg.sect sc).count < dnsMaxRr := by
      rw [hcount]
      decide
    obtain ⟨rc, w, st, r, hrun, hmsg, hoff, hst, hlater, hshow⟩ :=
      record_loaded hat hfree hlen hfit hclean
    have herrs : w.dec.errs = s.dec.errs := ((rrBody_errs (loadEnv pkt) sc).ok hrun).1
    refine ⟨_, rows_taken (rrBody_positive (loadEnv_quiet pkt) sc) (Sect.loc sc) hrun
      (by rw [herrs]; exact hroom), ?_⟩
    have hrec : records w.msg sc = [r] := by
      rw [hmsg, countUp_records _ _ hfree,
        List.eq_nil_of_length_eq_zero ((length_records s.msg sc).trans hcount), List.nil_append]
    constructor
    case hdr => rw [dnsDecErr_msg, hmsg, hdr_countUp, stage_hdr]
    case qd => rw [dnsDecErr_msg, hmsg, (countUp_qd _ _).1, stage_qd]
    case qdLen => rw [dnsDecErr_msg, hmsg, (countUp_qd _ _).2, stage_qdLen]
    case others =>
      intro sc' hne
      rw [dnsDecErr_msg, hmsg, countUp_sect_ne hne, stage_sect_ne _ _ _ _ hne]
    case later =>
      rw [dnsDecErr_msg, hmsg, countUp_store, stage_store]
      exact hlater
    case len =>
      rw [dnsDecErr_msg, hmsg, countUp_store, stage_store, hst, List.flatMap_singleton]
    case errs =>
      rw [← herrs]
      exact length_dnsDecErr_le _ _ _ w
    case offset =>
      intro hsc
      rw [dnsDecErr_offset, hoff]
      exact Nat.mod_eq_of_lt (hfit.inRange fun hk => hsc (hfit.place hk))
    case shows =>
      intro st' hst'
      rw [dnsDecErr_msg] at hst' ⊢
      rw [hmsg, countUp_store, stage_store] at hst'
      rw [hrec]
      exact .cons (hshow st' hst') .nil

end

theorem sect_fits {R : DnsRr Ptr → RrView → Prop}
    (hR : ∀ {v r rc w}, RecordAt pkt s.dec.offset v fin → rrBody (loadEnv pkt) sc s = .ok rc w →
      records w.msg sc = records s.msg sc ++ [r] → R r v →
      Fits sc (slot s.msg sc) v fin ∧ Clean s.msg.store (loadedStrs v))
    (hrun : decodeSect (loadEnv pkt) sc s = .ok 0 t)
    (hall : List.Forall₂ R (records t.msg sc) vs) :
    SectFits sc (slot s.msg sc) s.msg.store vs fin := by
  have hcount' : (t.msg.sect sc).count = vs.length := by
    rw [← length_records]
    exact hall.length_eq
  have hone : vs.length ≤ 1 := by
    have hle := sect_count_le hrun
    rwa [hcount', hcount] at hle
  cases vs with
  | nil => exact ⟨Nat.zero_le _, fun v h => absurd h List.not_mem_nil, clean_nil _⟩
  | cons v rest =>
    obtain rfl : rest = [] :=
      List.eq_nil_of_length_eq_zero (Nat.le_zero.mp (Nat.le_of_succ_le_succ hone))
    obtain ⟨mid, hat, rfl⟩ := hat
    obtain ⟨rc, w, hw, hmsg⟩ := sect_taken hrun hn.symm (by rw [hcount]; exact hcount')
    cases hrec : records t.msg sc with
    | nil =>
      rw [hrec] at hall
      cases hall
    | cons r rest =>
      rw [hrec] at hall
      cases hall with
      | cons hv hrest =>
        cases hrest
        have hnil := List.eq_nil_of_length_eq_zero ((length_records s.msg sc).trans hcount)
        obtain ⟨hfit, hclean⟩ := hR hat hw (by rw [← hmsg, hrec, hnil]; rfl) hv
        refine ⟨hone, List.forall_mem_singleton.mpr hfit, ?_⟩
        rwa [List.flatMap_singleton]

end Entry

structure QdShows (st : NameStore) (q : DnsQd Ptr) (v : DnsQd Bytes) : Prop where
  qname : Points st q.qname v.qname
  qtype : q.qtype = v.qtype
  qclass : q.qclass = v.qclass

def questions (m : DnsMsg) : List (DnsQd Ptr) := [m.qd].take m.qdLen

theorem length_questions (m : DnsMsg) : (questions m).length = m.qdLen := by
  rw [questions, List.length_take]
  exact Nat.min_eq_left m.qd_fits

theorem storeSize_singleton (x : Bytes) : storeSize [x] = x.length+1 := List.sum_singleton

theorem addQd_free {m : DnsMsg} (h : m.qdLen+1 ≤ dnsMaxQd) (qd : DnsQd Ptr) :
    addQd m qd = { m with qd := qd, qdLen := m.qdLen+1, qd_fits := h } := dif_pos h

theorem shown_questions_plain {st : NameStore} {ps : List (DnsQd Ptr)} {qs : List (DnsQd Bytes)}
    (h : List.Forall₂ (QdShows st) ps qs) : ∀ q ∈ qs, (0 : UInt8) ∉ q.qname := by
  induction h with
  | nil => exact fun q hq => absurd hq List.not_mem_nil
  | cons hq _ ih => exact List.forall_mem_cons.mpr ⟨(Points.plain hq.qname).2, ih⟩

section Question

variable {pkt : Bytes} {s t : DecState}

def asked (pkt : Bytes) (s : DecState) (text : Bytes) (e off : ℕ) (st : NameStore) : DecState :=
  { moveTo (put s 0 (text ++ [0])) (e+4) with
    msg := addQd { s.msg with store := st } ⟨.ref off, (qdAt pkt e).1, (qdAt pkt e).2⟩ }

theorem qdFixed_load (u : DecState) {e : ℕ} (hin : e+4 ≤ pkt.length) :
    qdFixed (loadEnv pkt) (moveTo u e) = .ok (qdAt pkt e) (moveTo (moveTo u e) (e+4)) :=
  qdFixed_run (show (moveTo u e).dec.offset+4 ≤ (loadEnv pkt).pkt.length from hin)

theorem qdBody_asked {text : Bytes} {e off : ℕ} {st : NameStore}
    (hat : NameAt pkt s.dec.offset text e) (hroom : text.length+1 ≤ dnsMsgSize)
    (hin : e+4 ≤ pkt.length) (hfree : s.msg.qdLen+1 ≤ dnsMaxQd)
    (hst : msgStoreStr s.msg.store (cstr text) = some (off, st)) :
    qdBody (loadEnv pkt) s = .ok ((text.length+1 : ℕ) : ℤ) (asked pkt s text e off st) := by
  have hslot : qdSlot (loadEnv pkt) s = .ok () s := by
    rw [qdSlot, bind_of_ok (get_run s), when_neg fun h => by have := h.2; omega]
    rfl
  have hshow : Shows (moveTo (moveTo (put s 0 (text ++ [0])) e) (e+4)) 0 text :=
    shows_put s (by omega)
  rw [qdBody, bind_of_ok hslot, bind_of_ok (qdName_run (loadEnv pkt) hat hroom),
    bind_of_ok (qdFixed_load _ hin)]
  have hload : loadQd (qdAt pkt e).1 (qdAt pkt e).2
    (moveTo (moveTo (put s 0 (text ++ [0])) e) (e+4)) =
      .ok () (asked pkt s text e off st) := by
    rw [loadQd, bind_of_ok hshow.msgStr, bind_of_ok (get_run _)]
    simp only [moveTo_msg, put_msg, hst]
    rw [modify_run]
    simp only [moveTo_msg, put_msg]
    rfl
  exact bind_of_ok hload _

/-- A question that was decoded to its end was stored. -/
theorem qdBody_ok {rc : ℤ} (h : qdBody (loadEnv pkt) s = .ok rc t) :
    ∃ text e off st, NameAt pkt s.dec.offset text e ∧ e+4 ≤ pkt.length ∧
      s.msg.qdLen+1 ≤ dnsMaxQd ∧ msgStoreStr s.msg.store (cstr text) = some (off, st) ∧
      t = asked pkt s text e off st := by
  have hrun := h
  rw [qdBody] at h
  obtain ⟨_, s1, h1, hname⟩ := (bind_ok _ _ _ _ _).mp h
  obtain ⟨hs1, hfree⟩ := qdSlot_ok h1
  rw [hs1] at hname
  obtain ⟨n, s2, h2, hfixed⟩ := (bind_ok _ _ _ _ _).mp hname
  obtain ⟨text, e, hat, hroom, -, hs2⟩ := qdName_ok h2
  by_cases hin : e+4 ≤ pkt.length
  · cases hst : msgStoreStr s.msg.store (cstr text) with
    | some p =>
      have hasked : qdBody (loadEnv pkt) s = _ := qdBody_asked hat hroom hin (hfree rfl) hst
      rw [hrun] at hasked
      cases hasked
      exact ⟨text, e, p.1, p.2, hat, hin, hfree rfl, hst, rfl⟩
    | none =>
      have hshow : Shows (moveTo (moveTo (put s 0 (text ++ [0])) e) (e+4)) 0 text :=
        shows_put s (by omega)
      rw [hs2, bind_of_ok (qdFixed_load _ hin)] at hfixed
      obtain ⟨_, s3, h3, -⟩ := (bind_ok _ _ _ _ _).mp hfixed
      rw [when_pos (loadEnv_loads pkt), loadQd, bind_of_ok hshow.msgStr,
        bind_of_ok (get_run _)] at h3
      simp only [moveTo_msg, put_msg, hst] at h3
      cases h3
  · obtain ⟨c, u, hshort⟩ : ∃ c u, qdFixed (loadEnv pkt) (moveTo (put s 0 (text ++ [0])) e) =
        .exit c u := qdFixed_short (Nat.lt_of_not_le hin)
    rw [hs2, bind_of_exit hshort] at hfixed
    cases hfixed

theorem qdBody_refused {c : ℤ} (h : qdBody (loadEnv pkt) s = .exit c t) :
    t.msg.qdLen = s.msg.qdLen := by
  have hslot : Keeps touchFrame (qdSlot (loadEnv pkt)) :=
    keeps_get.bind fun _ => keeps_when _ fun _ => keeps_exit_fail touchFrame_allows.toAllowsFill
  rw [qdBody_eq] at h
  rcases (bind_exit _ _ _ _ _).mp h with h | ⟨_, s1, h1, hfill⟩
  · exact (hslot.exit h).counts.1
  rw [(qdSlot_ok h1).1] at hfill
  rcases (bind_exit _ _ _ _ _).mp hfill with hleft | ⟨p, s2, h2, hload⟩
  · exact ((touches_qdFill (loadEnv pkt)).exit hleft).counts.1
  have hsame := ((touches_qdFill (loadEnv pkt)).ok h2).counts.1
  rw [when_pos (loadEnv_loads pkt)] at hload
  rcases (bind_exit _ _ _ _ _).mp hload with hleft | ⟨_, s3, -, hlast⟩
  · rw [loadQd] at hleft
    rcases (bind_exit _ _ _ _ _).mp hleft with hleft | ⟨text, s3, h3, hleft⟩
    · exact ((keeps_msgStr touchFrame_allows.toAllowsFill 0).exit hleft).counts.1.trans hsame
    rw [(msgStr_ok h3).1, bind_of_ok (get_run _)] at hleft
    cases hst : msgStoreStr s2.msg.store text with
    | none =>
      simp only [hst] at hleft
      cases hleft
      exact hsame
    | some p =>
      simp only [hst] at hleft
      cases hleft
  · cases hlast

theorem asked_msg {text : Bytes} {e off : ℕ} {st : NameStore} (hfree : s.msg.qdLen+1 ≤ dnsMaxQd) :
    (asked pkt s text e off st).msg =
      { s.msg with
        store := st
        qd := ⟨.ref off, (qdAt pkt e).1, (qdAt pkt e).2⟩
        qdLen := s.msg.qdLen+1
        qd_fits := hfree } :=
  addQd_free (m := { s.msg with store := st }) hfree _

theorem asked_questions {text : Bytes} {e off : ℕ} {st : NameStore}
    (hfree : s.msg.qdLen+1 ≤ dnsMaxQd) : questions (asked pkt s text e off st).msg =
      [⟨.ref off, (qdAt pkt e).1, (qdAt pkt e).2⟩] := by
  rw [asked_msg hfree, questions, List.take_succ_cons, List.take_nil]

structure QdLoaded (qs : List (DnsQd Bytes)) (fin : ℕ) (s t : DecState) : Prop where
  hdr : t.msg.hdr = s.msg.hdr
  sects : ∀ sc, t.msg.sect sc = s.msg.sect sc
  len : t.msg.store.len = s.msg.store.len+storeSize (qs.map DnsQd.qname)
  errs : t.dec.errs.length ≤ s.dec.errs.length+1
  offset : t.dec.offset = fin
  shows : ∀ st, Later t.msg.store st → List.Forall₂ (QdShows st) (questions t.msg) qs

variable {qs : List (DnsQd Bytes)} {fin : ℕ} (hat : QuestionsAt pkt s.dec.offset qs fin)
  (hn : qs.length = s.msg.hdr.qdCount.toNat) (hnone : s.msg.qdLen = 0)

include hat hn hnone

theorem qd_loaded (hroom : s.dec.errs.length < dnsMaxEmsg) (hone : qs.length ≤ 1)
    (hclean : Clean s.msg.store (qs.map DnsQd.qname)) :
    ∃ t, decodeQd (loadEnv pkt) s = .ok 0 t ∧ QdLoaded qs fin s t := by
  rw [decodeQd, bind_of_ok (get_run s), ← hn]
  cases qs with
  | nil =>
    obtain rfl : fin = s.dec.offset := hat
    refine ⟨s, rfl, rfl, fun _ => rfl, rfl, Nat.le_succ _, rfl, fun st _ => ?_⟩
    rw [List.eq_nil_of_length_eq_zero ((length_questions s.msg).trans hnone)]
    exact .nil
  | cons q rest =>
    obtain rfl : rest = [] :=
      List.eq_nil_of_length_eq_zero (Nat.le_zero.mp (Nat.le_of_succ_le_succ hone))
    obtain ⟨mid, ⟨e, hname, rfl, hin, hfields⟩, rfl⟩ := hat
    have hshort := hclean.short q.qname List.mem_cons_self
    have hplain := cstr_of_no_zero _ (hclean.plain q.qname List.mem_cons_self)
    have hfree : s.msg.qdLen+1 ≤ dnsMaxQd := by
      rw [hnone, dnsMaxQd]
    obtain ⟨⟨off, st⟩, hst⟩ := Option.isSome_iff_exists.mp (msgStoreStr_isSome.mpr ⟨hshort,
      by have := hclean.room; rwa [List.map_singleton, storeSize_singleton] at this⟩)
    obtain ⟨hstored, -, hlen, -⟩ := msgStoreStr_some hst
    rw [← hplain] at hst
    have hrun := qdBody_asked hname (hshort.trans_lt (by decide)) hin hfree hst
    have hmsg : (asked pkt s q.qname e off st).msg = _ := asked_msg hfree
    have herrs : (asked pkt s q.qname e off st).dec.errs = s.dec.errs := put_errs s 0 _
    refine ⟨_, rows_taken (qdBody_positive (loadEnv_quiet pkt)) .qd hrun
      (by rw [herrs]; exact hroom), ?_⟩
    constructor
    case hdr => rw [dnsDecErr_msg, hmsg]
    case sects =>
      intro sc
      rw [dnsDecErr_msg, hmsg]
      cases sc <;> rfl
    case len =>
      rw [dnsDecErr_msg, hmsg, List.map_singleton, storeSize_singleton]
      exact hlen
    case errs =>
      rw [← herrs]
      exact length_dnsDecErr_le _ _ _ _
    case offset =>
      rw [dnsDecErr_offset]
      rfl
    case shows =>
      intro st' hst'
      rw [dnsDecErr_msg] at hst' ⊢
      rw [hmsg] at hst'
      rw [asked_questions hfree]
      refine .cons ⟨?_, (congrArg Prod.fst hfields).symm, (congrArg Prod.snd hfields).symm⟩ .nil
      rw [Points, (hst'.keep _ _ hstored).str, hplain]

theorem qd_fits (hrun : decodeQd (loadEnv pkt) s = .ok 0 t) (hcount : t.msg.qdLen = qs.length)
    (h0 : ∀ q ∈ qs, (0 : UInt8) ∉ q.qname) :
    qs.length ≤ 1 ∧ Clean s.msg.store (qs.map DnsQd.qname) := by
  rw [decodeQd, bind_of_ok (get_run s), ← hn] at hrun
  have hpos : Gives (0 < ·) (qdBody (loadEnv pkt)) := qdBody_positive (loadEnv_quiet pkt)
  have hok (s : DecState) (rc : ℤ) (t : DecState) (h : qdBody (loadEnv pkt) s = .ok rc t) :
      t.msg.qdLen ≤ s.msg.qdLen+1 := by
    obtain ⟨text, e, off, st, -, -, hfree, -, rfl⟩ := qdBody_ok h
    rw [asked_msg hfree]
  have hexit (s : DecState) (c : ℤ) (t : DecState) (h : qdBody (loadEnv pkt) s = .exit c t) :=
    qdBody_refused h
  have hone : qs.length ≤ 1 := by
    have hle := rows_loaded (μ := DnsMsg.qdLen) hpos hok hexit _ hrun
    rwa [hcount, hnone] at hle
  refine ⟨hone, ?_⟩
  cases qs with
  | nil => exact clean_nil _
  | cons q rest =>
    obtain rfl : rest = [] := List.eq_nil_of_length_eq_zero
      (Nat.le_zero.mp (Nat.le_of_succ_le_succ hone))
    obtain ⟨mid, ⟨e, hname, -, -, -⟩, -⟩ := hat
    obtain ⟨rc, w, hw, -⟩ := rows_one (μ := DnsMsg.qdLen) hpos hok hexit _ hrun
      (by rw [hnone]; exact hcount)
    obtain ⟨text, e', off, st', hname', -, hfree, hst, rfl⟩ := qdBody_ok hw
    obtain ⟨rfl, -⟩ := hname.unique hname'
    have hplain := h0 q List.mem_cons_self
    rw [cstr_of_no_zero _ hplain] at hst
    obtain ⟨-, -, hlen, hshort⟩ := msgStoreStr_some hst
    refine ⟨List.forall_mem_singleton.mpr hshort, ?_, List.forall_mem_singleton.mpr hplain⟩
    rw [List.map_singleton, storeSize_singleton, ← Nat.add_assoc, ← hlen]
    exact st'.fits

end Question

theorem clean_append_iff {st st' : NameStore} {xs ys : List Bytes}
    (hlen : st'.len = st.len+storeSize xs) : Clean st (xs ++ ys) ↔ Clean st xs ∧ Clean st' ys := by
  rw [clean_append, ← hlen]
  exact and_congr_right fun _ =>
    ⟨fun ⟨hshort, hroom, hplain⟩ => ⟨hshort, hroom, hplain⟩,
      fun h => ⟨h.short, h.room, h.plain⟩⟩

theorem slot_congr {m m' : DnsMsg} {sc : Sect} (h : m.sect sc = m'.sect sc) :
    slot m sc = slot m' sc := by
  rw [slot, slot, h]

theorem records_congr {m m' : DnsMsg} {sc : Sect} (h : m.sect sc = m'.sect sc) :
    records m sc = records m' sc := by
  rw [records, records, h]

/-- The state in front of some sections, of which the first starts at the offset. -/
structure Ready (m : DnsMsg) (pkt : Bytes) (off k : ℕ) (scs : List Sect) (s : DecState) : Prop where
  hdr : s.msg.hdr = hdrOf pkt
  offset : s.dec.offset = off
  fresh : ∀ sc ∈ scs, s.msg.sect sc = (dnsMsgReset m).sect sc
  errs : s.dec.errs.length ≤ k

/-- What a loaded record is known by is enough to tell that it fitted. -/
def Tells (m : DnsMsg) (pkt : Bytes) (R : DnsRr Ptr → RrView → Prop) : Prop :=
  ∀ sc s v fin rc w r, s.msg.sect sc = (dnsMsgReset m).sect sc →
    RecordAt pkt s.dec.offset v fin → rrBody (loadEnv pkt) sc s = .ok rc w →
    records w.msg sc = records s.msg sc ++ [r] → R r v →
    Fits sc (slot s.msg sc) v fin ∧ Clean s.msg.store (loadedStrs v)

section Tells

variable {m : DnsMsg} (hm : Sized m) {sc : Sect} {s : DecState}
  (hs : s.msg.sect sc = (dnsMsgReset m).sect sc)

include hs

theorem fresh_count : (s.msg.sect sc).count < dnsMaxRr := by
  rw [hs]
  cases sc <;> exact Nat.zero_lt_succ _

include hm

theorem fresh_sized : (slot s.msg sc).rdata.txtStr.length = dnsMaxTxt := by
  have hsized : Sized (dnsMsgReset m) := sized_of_slots (fun sc => by cases sc <;> rfl) hm
  rw [slot_congr hs]
  exact sized_slot hsized sc

omit hs

theorem shows_tells (pkt : Bytes) (st : NameStore) : Tells m pkt (RrShows st) :=
  fun _ _ _ _ _ _ _ hs hat hrun hmem hshow =>
    record_fits hat (fresh_count hs) (fresh_sized hm hs) hrun hmem hshow

/-- In fresh slots it is enough that the strings were stored and have no zero byte. -/
theorem kept_tells (pkt : Bytes) (hfresh : ∀ sc, (slot (dnsMsgReset m) sc).rdata.txtNumStr = 0) :
    Tells m pkt fun r v => (∀ p ∈ rdPtrs r.rrType r.rdata, p ≠ .null) ∧
      ∀ x ∈ loadedStrs v, (0 : UInt8) ∉ x := by
  intro sc s v fin rc w r hs hat hrun hmem ⟨hne, h0⟩
  have hshow := record_shown hat (fresh_count hs) (fresh_sized hm hs) hrun hmem
    (by rw [slot_congr hs]; exact hfresh sc) hne h0 _ (.refl _)
  exact record_fits hat (fresh_count hs) (fresh_sized hm hs) hrun hmem hshow

end Tells

section Ready

variable {m : DnsMsg} {pkt : Bytes} {off k : ℕ} {sc : Sect} {scs : List Sect} {s t : DecState}
  {vs : List RrView} {fin : ℕ} (hr : Ready m pkt off k (sc :: scs) s)

include hr

theorem Ready.count : (s.msg.sect sc).count = 0 := by
  rw [hr.fresh sc List.mem_cons_self]
  cases sc <;> rfl

theorem Ready.slot : slot s.msg sc = MessageSlots.slot (dnsMsgReset m) sc :=
  slot_congr (hr.fresh sc List.mem_cons_self)

theorem Ready.next (hl : SectLoaded sc vs fin s t) (hsc : sc ≠ .ar) (hnotin : sc ∉ scs) :
    Ready m pkt fin (k+1) scs t where
  hdr := hl.hdr.trans hr.hdr
  offset := hl.offset hsc
  fresh sc' hmem := (hl.others sc' fun h => hnotin (h ▸ hmem)).trans
    (hr.fresh sc' (List.mem_cons_of_mem _ hmem))
  errs := hl.errs.trans (Nat.succ_le_succ hr.errs)

variable (hm : Sized m) (hat : RecordsAt pkt off vs fin) (hn : vs.length = sectCount (hdrOf pkt) sc)
  (hk : k < dnsMaxEmsg)

include hm hat hn hk

theorem Ready.loaded
    (hfits : SectFits sc (MessageSlots.slot (dnsMsgReset m) sc) s.msg.store vs fin) :
    ∃ t, decodeSect (loadEnv pkt) sc s = .ok 0 t ∧ SectLoaded sc vs fin s t := by
  have hlen := fresh_sized hm (hr.fresh sc List.mem_cons_self)
  rw [← hr.slot] at hfits
  rw [← hr.offset] at hat
  rw [← hr.hdr] at hn
  exact sect_loaded hat hn hr.count hlen (hr.errs.trans_lt hk) hfits

theorem Ready.fits {R : DnsRr Ptr → RrView → Prop} (hR : Tells m pkt R)
    (hrun : decodeSect (loadEnv pkt) sc s = .ok 0 t)
    (hall : List.Forall₂ R (records t.msg sc) vs) :
    SectFits sc (MessageSlots.slot (dnsMsgReset m) sc) s.msg.store vs fin ∧
      SectLoaded sc vs fin s t := by
  have hfits : SectFits sc (MessageSlots.slot (dnsMsgReset m) sc) s.msg.store vs fin := by
    rw [← hr.slot]
    rw [← hr.offset] at hat
    rw [← hr.hdr] at hn
    exact sect_fits hat hn hr.count
      (fun hat hw hmem hv => hR sc s _ fin _ _ _ (hr.fresh sc List.mem_cons_self) hat hw hmem hv)
      hrun hall
  obtain ⟨t', hrun', hloaded⟩ := hr.loaded hm hat hn hk hfits
  rw [hrun] at hrun'
  cases hrun'
  exact ⟨hfits, hloaded⟩

end Ready

/-- The questions and records of a packet, with the ends of its record sections. -/
structure Entries (pkt : Bytes) (qs : List (DnsQd Bytes)) (vs : Sect → List RrView)
    (fin : Sect → ℕ) : Prop where
  front : ∃ e, QuestionsAt pkt dnsHdrLen qs e ∧ RecordsAt pkt e (vs .an) (fin .an)
  ns : RecordsAt pkt (fin .an) (vs .ns) (fin .ns)
  ar : RecordsAt pkt (fin .ns) (vs .ar) (fin .ar)

/-- Every section of the message has as many entries as the header says, and they are the
ones found on the wire. -/
structure Complete (pkt : Bytes) (m : DnsMsg) : Prop where
  qdLen : m.qdLen = m.hdr.qdCount.toNat
  counts : ∀ sc, (m.sect sc).count = sectCount m.hdr sc
  entries : ∃ qs vs fin, Entries pkt qs vs fin ∧
    List.Forall₂ (QdShows m.store) (questions m) qs ∧
    ∀ sc, List.Forall₂ (RrShows m.store) (records m sc) (vs sc)

/-- At most one question and at most one record in each section, and all of them fit. -/
structure Loadable (m : DnsMsg) (pkt : Bytes) (qs : List (DnsQd Bytes)) (vs : Sect → List RrView)
    (fin : Sect → ℕ) : Prop where
  entries : Entries pkt qs vs fin
  qdCount : qs.length = (hdrOf pkt).qdCount.toNat
  counts : ∀ sc, (vs sc).length = sectCount (hdrOf pkt) sc
  oneQd : qs.length ≤ 1
  one : ∀ sc, (vs sc).length ≤ 1
  fits : ∀ sc, ∀ v ∈ vs sc, Fits sc (slot (dnsMsgReset m) sc) v (fin sc)
  clean : Clean (dnsMsgReset m).store (qs.map DnsQd.qname ++ ((vs .an).flatMap loadedStrs ++
    ((vs .ns).flatMap loadedStrs ++ (vs .ar).flatMap loadedStrs)))

section Message

variable {m : DnsMsg} {pkt : Bytes} {t : DecState}

theorem dnsMsgDecode_zero (h : dnsHdrLen ≤ pkt.length) : dnsMsgDecode m pkt = .ok 0 t ↔
    ∃ u0 u1 u2, decodeQd (loadEnv pkt) (headed pkt m) = .ok 0 u0 ∧
      decodeSect (loadEnv pkt) .an u0 = .ok 0 u1 ∧ decodeSect (loadEnv pkt) .ns u1 = .ok 0 u2 ∧
      decodeSect (loadEnv pkt) .ar u2 = .ok 0 t := by
  have hfront := decodeFront_load (decodeHdr_load pkt m h)
  constructor
  · intro hrun
    obtain ⟨u0, t1, h0, hsects, hsize⟩ := decodeMsg_zero hrun
    rw [hfront] at h0
    obtain ⟨_, u1, h1, hsects⟩ := (bind_ok _ _ _ _ _).mp hsects
    obtain ⟨_, u2, h2, hsects⟩ := (bind_ok _ _ _ _ _).mp hsects
    obtain ⟨_, u3, h3, hsects⟩ := (bind_ok _ _ _ _ _).mp hsects
    cases hsects
    cases hsize
    exact ⟨u0, u1, u2, orReturn_ok.mp h0, orReturn_ok.mp h1, orReturn_ok.mp h2, orReturn_ok.mp h3⟩
  · rintro ⟨u0, u1, u2, h0, h1, h2, h3⟩
    have hsects : decodeSects (loadEnv pkt) [.an, .ns, .ar] u0 = .ok () t := by
      rw [decodeSects, bind_of_ok ((orReturn_ok (u := ())).mpr h1), decodeSects,
        bind_of_ok ((orReturn_ok (u := ())).mpr h2), decodeSects,
        bind_of_ok ((orReturn_ok (u := ())).mpr h3)]
      rfl
    refine (call_ok _ _ _ _).mpr (.inl ?_)
    rw [bind_of_ok (hfront.trans ((orReturn_ok (u := ())).mpr h0)), bind_of_ok hsects]
    rfl

structure Runs (m : DnsMsg) (pkt : Bytes) (u0 u1 u2 t : DecState) : Prop where
  quests : decodeQd (loadEnv pkt) (headed pkt m) = .ok 0 u0
  an : decodeSect (loadEnv pkt) .an u0 = .ok 0 u1
  ns : decodeSect (loadEnv pkt) .ns u1 = .ok 0 u2
  ar : decodeSect (loadEnv pkt) .ar u2 = .ok 0 t
  hdr : u0.msg.hdr = hdrOf pkt
  same1 : ∀ sc, sc ≠ .an → Same sc u0.msg u1.msg
  same2 : ∀ sc, sc ≠ .ns → Same sc u1.msg u2.msg
  same3 : ∀ sc, sc ≠ .ar → Same sc u2.msg t.msg

theorem decode_runs (hpkt : dnsHdrLen ≤ pkt.length) (hrun : dnsMsgDecode m pkt = .ok 0 t) :
    ∃ u0 u1 u2, Runs m pkt u0 u1 u2 t := by
  obtain ⟨u0, u1, u2, h0, h1, h2, h3⟩ := (dnsMsgDecode_zero hpkt).mp hrun
  exact ⟨u0, u1, u2, h0, h1, h2, h3,
    ((keeps_decodeQd growFrame_calls (grows_dnsQdDecode (loadEnv pkt))).ok h0).2,
    fun sc hsc => (decodeSect_same _ hsc).ok h1, fun sc hsc => (decodeSect_same _ hsc).ok h2,
    fun sc hsc => (decodeSect_same _ hsc).ok h3⟩

theorem Runs.sameHdr {u0 u1 u2 : DecState} (h : Runs m pkt u0 u1 u2 t) : t.msg.hdr = hdrOf pkt := by
  rw [(h.same3 .an (by decide)).hdr, (h.same2 .an (by decide)).hdr, (h.same1 .ns (by decide)).hdr,
    h.hdr]

theorem Same.count {sc : Sect} {m m' : DnsMsg} (h : Same sc m m') :
    (m'.sect sc).count = (m.sect sc).count := by
  rw [← length_records, ← length_records, h.records]

/-- The loader takes one record of each section at most. -/
theorem Runs.few {u0 u1 u2 : DecState} (h : Runs m pkt u0 u1 u2 t) (sc : Sect) :
    (t.msg.sect sc).count ≤ 1 := by
  have hzero (sc : Sect) : (u0.msg.sect sc).count = 0 :=
    ((decodeQd_counts (loadEnv pkt)).ok h.quests sc).trans (by cases sc <;> rfl)
  cases sc with
  | an =>
    rw [(h.same3 .an (by decide)).count, (h.same2 .an (by decide)).count]
    exact (sect_count_le h.an).trans_eq (by rw [hzero])
  | ns =>
    rw [(h.same3 .ns (by decide)).count]
    exact (sect_count_le h.ns).trans_eq (by rw [(h.same1 .ns (by decide)).count, hzero])
  | ar =>
    exact (sect_count_le h.ar).trans_eq (by
      rw [(h.same2 .ar (by decide)).count, (h.same1 .ar (by decide)).count, hzero])

section Complete

variable {qs : List (DnsQd Bytes)} {vs : Sect → List RrView} {fin : Sect → ℕ} (hm : Sized m)
  (hpkt : dnsHdrLen ≤ pkt.length)

theorem headed_ready {e : ℕ} {u : DecState} (hu : QdLoaded qs e (headed pkt m) u) :
    Ready m pkt e 1 [.an, .ns, .ar] u where
  hdr := hu.hdr
  offset := hu.offset
  fresh sc _ := (hu.sects sc).trans (by cases sc <;> rfl)
  errs := hu.errs

include hm hpkt

theorem loaded_shows (h : Loadable m pkt qs vs fin) :
    ∃ t, dnsMsgDecode m pkt = .ok 0 t ∧ t.msg.hdr = hdrOf pkt ∧
      List.Forall₂ (QdShows t.msg.store) (questions t.msg) qs ∧
      ∀ sc, List.Forall₂ (RrShows t.msg.store) (records t.msg sc) (vs sc) := by
  obtain ⟨e, hq, han⟩ := h.entries.front
  have hclean := h.clean
  have hsplit := clean_append.mp hclean
  obtain ⟨u0, hrun0, h0⟩ := qd_loaded (s := headed pkt m) hq h.qdCount rfl
    (show 0 < dnsMaxEmsg by decide) h.oneQd
    ⟨hsplit.1.short, hsplit.1.room, hsplit.1.plain⟩
  obtain ⟨-, hclean⟩ := (clean_append_iff h0.len).mp hclean
  have hr0 := headed_ready h0
  obtain ⟨u1, hrun1, h1⟩ := hr0.loaded hm han (h.counts .an) (by decide)
    ⟨h.one .an, h.fits .an, (clean_append.mp hclean).1⟩
  obtain ⟨-, hclean⟩ := (clean_append_iff h1.len).mp hclean
  have hr1 := hr0.next h1 (by decide) (by decide)
  obtain ⟨u2, hrun2, h2⟩ := hr1.loaded hm h.entries.ns (h.counts .ns) (by decide)
    ⟨h.one .ns, h.fits .ns, (clean_append.mp hclean).1⟩
  obtain ⟨-, hclean⟩ := (clean_append_iff h2.len).mp hclean
  have hr2 := hr1.next h2 (by decide) (by decide)
  obtain ⟨t, hrun3, h3⟩ := hr2.loaded hm h.entries.ar (h.counts .ar) (by decide)
    ⟨h.one .ar, h.fits .ar, hclean⟩
  refine ⟨t, (dnsMsgDecode_zero hpkt).mpr ⟨u0, u1, u2, hrun0, hrun1, hrun2, hrun3⟩,
    (h3.hdr.trans h2.hdr).trans (h1.hdr.trans hr0.hdr), ?_, ?_⟩
  · have hqd : questions t.msg = questions u0.msg := by
      rw [questions, questions, h3.qd, h2.qd, h1.qd, h3.qdLen, h2.qdLen, h1.qdLen]
    rw [hqd]
    exact h0.shows _ (h1.later.trans (h2.later.trans h3.later))
  · intro sc
    cases sc with
    | an =>
      rw [records_congr ((h3.others .an (by decide)).trans (h2.others .an (by decide)))]
      exact h1.shows _ (h2.later.trans h3.later)
    | ns =>
      rw [records_congr (h3.others .ns (by decide))]
      exact h2.shows _ h3.later
    | ar => exact h3.shows _ (.refl _)

theorem loaded_complete (h : Loadable m pkt qs vs fin) :
    ∃ t, dnsMsgDecode m pkt = .ok 0 t ∧ Complete pkt t.msg := by
  obtain ⟨t, hrun, hhdr, hquest, hshows⟩ := loaded_shows hm hpkt h
  refine ⟨t, hrun, ?_, fun sc => ?_, qs, vs, fin, h.entries, hquest, hshows⟩
  · rw [hhdr, ← h.qdCount, ← length_questions]
    exact hquest.length_eq
  · rw [hhdr, ← h.counts sc, ← length_records]
    exact (hshows sc).length_eq

theorem known_loadable {R : DnsRr Ptr → RrView → Prop} (hR : Tells m pkt R)
    (hrun : dnsMsgDecode m pkt = .ok 0 t) (hent : Entries pkt qs vs fin)
    (hqdLen : t.msg.qdLen = t.msg.hdr.qdCount.toNat)
    (hcounts : ∀ sc, (t.msg.sect sc).count = sectCount t.msg.hdr sc)
    (hquest : t.msg.qdLen = qs.length) (hplain : ∀ q ∈ qs, (0 : UInt8) ∉ q.qname)
    (hknown : ∀ sc, List.Forall₂ R (records t.msg sc) (vs sc)) :
    Loadable m pkt qs vs fin := by
  obtain ⟨u0, u1, u2, hruns⟩ := decode_runs hpkt hrun
  have hrun0 := hruns.quests
  have hhdr := hruns.sameHdr
  have hsame1 := hruns.same1 .ns (by decide)
  have hsame2 := hruns.same2 .an (by decide)
  have hsame3 := hruns.same3 .an (by decide)
  have hqd : u0.msg.qdLen = qs.length := by
    rw [← hquest, hsame3.qdLen, hsame2.qdLen, hsame1.qdLen]
  have hqs : qs.length = (hdrOf pkt).qdCount.toNat := by
    rw [← hhdr, ← hqdLen, hquest]
  have hvs (sc : Sect) : (vs sc).length = sectCount (hdrOf pkt) sc := by
    rw [← hhdr, ← hcounts sc, ← length_records]
    exact (hknown sc).length_eq.symm
  obtain ⟨e, hq, han⟩ := hent.front
  obtain ⟨honeq, hcleanq⟩ := qd_fits (s := headed pkt m) hq hqs rfl hrun0 hqd hplain
  obtain ⟨u0', hrun0', h0⟩ := qd_loaded (s := headed pkt m) hq hqs rfl
    (show 0 < dnsMaxEmsg by decide) honeq hcleanq
  obtain rfl : u0' = u0 := by
    rw [hrun0] at hrun0'
    cases hrun0'
    rfl
  have hr0 := headed_ready h0
  have han' := hknown .an
  rw [hsame3.records, hsame2.records] at han'
  obtain ⟨hfits1, h1⟩ := hr0.fits hm han (hvs .an) (by decide) hR hruns.an han'
  have hr1 := hr0.next h1 (by decide) (by decide)
  have hns' := hknown .ns
  rw [(hruns.same3 .ns (by decide)).records] at hns'
  obtain ⟨hfits2, h2⟩ := hr1.fits hm hent.ns (hvs .ns) (by decide) hR hruns.ns hns'
  have hr2 := hr1.next h2 (by decide) (by decide)
  obtain ⟨hfits3, -⟩ := hr2.fits hm hent.ar (hvs .ar) (by decide) hR hruns.ar (hknown .ar)
  refine ⟨hent, hqs, hvs, honeq, fun sc => ?_, fun sc => ?_, ?_⟩
  · cases sc with
    | an => exact hfits1.one
    | ns => exact hfits2.one
    | ar => exact hfits3.one
  · cases sc with
    | an => exact hfits1.fits
    | ns => exact hfits2.fits
    | ar => exact hfits3.fits
  · have hclean0 := (clean_append_iff h0.len).mpr ⟨hcleanq, (clean_append_iff h1.len).mpr
      ⟨hfits1.clean, (clean_append_iff h2.len).mpr ⟨hfits2.clean, hfits3.clean⟩⟩⟩
    exact ⟨hclean0.short, hclean0.room, hclean0.plain⟩

end Complete

/-- The message of a packet that is too short for a header is left empty. -/
theorem short_empty (h : pkt.length < dnsHdrLen) (hrun : dnsMsgDecode m pkt = .ok 0 t) :
    t.msg = dnsMsgReset m := by
  have hfront := decodeFront_load (decodeHdr_short pkt m h)
  obtain ⟨u0, t1, h0, hsects, hsize⟩ := decodeMsg_zero hrun
  rw [hfront] at h0
  cases h0
  cases hsects
  cases hsize
  exact dnsDecErr_msg _ _ _ _

theorem short_complete (h : pkt.length < dnsHdrLen) (hrun : dnsMsgDecode m pkt = .ok 0 t) :
    Complete pkt t.msg := by
  rw [short_empty h hrun]
  refine ⟨rfl, fun sc => by cases sc <;> rfl, [], fun _ => [], fun _ => dnsHdrLen,
    ⟨⟨dnsHdrLen, rfl, rfl⟩, rfl, rfl⟩, .nil, fun sc => ?_⟩
  cases sc <;> exact .nil

/-- Whatever the packet, the loader leaves one record in each section at most. -/
theorem decoded_few (hrun : dnsMsgDecode m pkt = .ok 0 t) (sc : Sect) :
    (t.msg.sect sc).count ≤ 1 := by
  by_cases hshort : pkt.length < dnsHdrLen
  · rw [short_empty hshort hrun]
    cases sc <;> exact Nat.zero_le 1
  · obtain ⟨u0, u1, u2, hruns⟩ := decode_runs (Nat.le_of_not_lt hshort) hrun
    exact hruns.few sc

theorem no_success_iff : (¬ ∃ t, dnsMsgDecode m pkt = .ok 0 t) ↔
    (Overflows m pkt ∨ ∃ v ∈ recordVisits (loadEnv pkt) m, ¬ FixedInside (loadEnv pkt) v) := by
  constructor
  · intro h
    by_cases hin : ∀ v ∈ recordVisits (loadEnv pkt) m, FixedInside (loadEnv pkt) v
    · obtain ⟨rc, t, hrun⟩ := (dnsMsgDecode_defined m pkt).mpr hin
      refine .inl ((dnsMsgDecode_nonzero hrun).mp fun hrc => h ⟨t, ?_⟩)
      rw [← hrc]
      exact hrun
    · push Not at hin
      exact .inr hin
  · rintro (hover | ⟨v, hv, hout⟩) ⟨t, hrun⟩
    · exact (dnsMsgDecode_nonzero hrun).mpr hover rfl
    · exact hout ((dnsMsgDecode_defined m pkt).mp ⟨0, t, hrun⟩ v hv)

/-- Where the loader returns zero, the message is complete exactly when there is nothing to
load or everything fits. -/
theorem loader_complete_iff (pkt : Bytes) (m : DnsMsg) (hm : Sized m) :
    (∀ t, dnsMsgDecode m pkt = .ok 0 t → Complete pkt t.msg) ↔
      (pkt.length < dnsHdrLen ∨
        (Overflows m pkt ∨ ∃ v ∈ recordVisits (loadEnv pkt) m, ¬ FixedInside (loadEnv pkt) v) ∨
        ∃ qs vs fin, Loadable m pkt qs vs fin) := by
  rw [← no_success_iff]
  by_cases hshort : pkt.length < dnsHdrLen
  · exact iff_of_true (fun t => short_complete hshort) (.inl hshort)
  have hpkt := Nat.le_of_not_lt hshort
  constructor
  · intro h
    by_cases hsome : ∃ t, dnsMsgDecode m pkt = .ok 0 t
    · obtain ⟨t, hrun⟩ := hsome
      obtain ⟨hqdLen, hcounts, qs, vs, fin, hent, hquest, hshows⟩ := h t hrun
      have hcount : t.msg.qdLen = qs.length := by
        rw [← length_questions]
        exact hquest.length_eq
      exact .inr (.inr ⟨qs, vs, fin, known_loadable hm hpkt (shows_tells hm pkt t.msg.store) hrun
        hent hqdLen hcounts hcount (shown_questions_plain hquest) hshows⟩)
    · exact .inr (.inl hsome)
  · rintro (h | hnone | ⟨qs, vs, fin, h⟩) t hrun
    · exact absurd h hshort
    · exact absurd ⟨t, hrun⟩ hnone
    · obtain ⟨t', hrun', hcomplete⟩ := loaded_complete hm hpkt h
      rw [hrun] at hrun'
      cases hrun'
      exact hcomplete

end Message

def addrRecord (last : UInt8) : Bytes := [0, 0, 1, 0, 1, 0, 0, 0, 0, 0, 4, 192, 0, 2, last]

def oneAddrPkt : Bytes := responseHdr 1 0 0 ++ addrRecord 1

def twoAddrPkt : Bytes := responseHdr 2 0 0 ++ (addrRecord 1 ++ addrRecord 2)

theorem one_address_complete :
    ∃ t, dnsMsgDecode (zeroMsg 0) oneAddrPkt = .ok 0 t ∧ Complete oneAddrPkt t.msg := by
  have hzero : (dnsMsgDecode (zeroMsg 0) oneAddrPkt).result.map Prod.fst = some 0 := by
    decide +kernel
  obtain ⟨c, t, hrun, hc⟩ := Outcome.eq_ok hzero
  dsimp only at hc
  subst hc
  have hname : NameAt oneAddrPkt 12 [] 13 := by
    obtain ⟨j, ls, text, hreads, hj, -, htext, -, he⟩ :=
      (decodeName_ok_iff oneAddrPkt 12 2048 1 13 [0]).mp (by rfl)
    obtain rfl : text = [] := (List.append_inj_left' htext rfl).symm
    exact ⟨j, ls, hreads, hj, he⟩
  have hat : RecordAt oneAddrPkt 12
      ⟨ascii ".", 1, 1, 0, .a (toVector 4 [192, 0, 2, 1])⟩ 27 :=
    ⟨[], 13, _, hname, by decide, by decide, by decide, ⟨by decide, rfl⟩, by rfl⟩
  refine ⟨t, hrun, (loader_complete_iff oneAddrPkt (zeroMsg 0) (encodable_zero 0).sized).mpr
    (.inr (.inr ⟨[], fun sc => if sc = .an then
      [⟨ascii ".", 1, 1, 0, .a (toVector 4 [192, 0, 2, 1])⟩] else [], fun _ => 27, ?_⟩)) t hrun⟩
  constructor
  case entries => exact ⟨⟨12, rfl, 27, hat, rfl⟩, rfl, rfl⟩
  case qdCount => rfl
  case counts => exact fun sc => by cases sc <;> decide
  case oneQd => exact Nat.zero_le _
  case one => exact fun sc => by cases sc <;> decide
  case fits =>
    intro sc v hv
    cases sc with
    | an =>
      obtain rfl := List.mem_singleton.mp hv
      exact ⟨fun _ => by decide, fun hk => absurd hk (by decide), fun hk => absurd hk (by decide)⟩
    | ns => exact absurd hv List.not_mem_nil
    | ar => exact absurd hv List.not_mem_nil
  case clean => exact ⟨by decide, by decide, by decide⟩

theorem second_address_dropped :
    ¬ ∀ t, dnsMsgDecode (zeroMsg 0) twoAddrPkt = .ok 0 t → Complete twoAddrPkt t.msg := by
  intro h
  have hrun : (dnsMsgDecode (zeroMsg 0) twoAddrPkt).result.map (fun p =>
      (p.1, p.2.msg.hdr.anCount, (p.2.msg.sect .an).count)) = some (0, 2, 1) := by decide +kernel
  obtain ⟨rc, t, hok, hval⟩ := Outcome.eq_ok hrun
  obtain ⟨hrc, hval⟩ := Prod.mk.inj hval
  obtain ⟨hhdr, hcount⟩ := Prod.mk.inj hval
  have hsame := (h t (by rw [hok]; exact congrArg (Outcome.ok · t) hrc)).counts .an
  rw [hcount, sectCount, hhdr] at hsame
  exact absurd hsame (by decide)

end DnsPkt.LoadedMessage
