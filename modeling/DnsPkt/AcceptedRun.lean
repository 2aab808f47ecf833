import DnsPkt.MessageRun

/-!
# Accepted runs

`dns_validate` returns zero only when the error stack stayed empty, and the
stack never shrinks. Working back from its end, every question and every
record of an accepted run was decoded to its last statement and returned
zero.
-/

set_option autoImplicit false

namespace DnsPkt.AcceptedRun
open DnsPkt.CheckedRun DnsPkt.CheckedRun.Run DnsPkt.Octets DnsPkt.Protocol
open DnsPkt.MessageStore DnsPkt.MessageSlots DnsPkt.RecordDecoder DnsPkt.MessageDecoder
open DnsPkt.RecordRun DnsPkt.RecordFrame DnsPkt.RecordEntry DnsPkt.MessageRun

/-! The error stack of one entry: untouched when the decode falls through,
and one error more or a negative code when it leaves early. -/

def errFrame : Frame DecState ℤ Fault where
  keep s t := t.dec.errs = s.dec.errs ∧ t.msg.hdr = s.msg.hdr
  leave s c t := t.msg.hdr = s.msg.hdr ∧
    ((c = 0 ∧ s.dec.errs.length < dnsMaxEmsg ∧ ∃ err, t.dec.errs = s.dec.errs ++ [err]) ∨
      (c = -1 ∧ t.dec.errs = s.dec.errs))
  raise _ := True
  refl _ := ⟨rfl, rfl⟩
  trans h1 h2 := ⟨h2.1.trans h1.1, h2.2.trans h1.2⟩
  lift h1 h2 := by
    rw [← h1.1, ← h1.2]
    exact h2

theorem errFrame_err (s : DecState) (group field : DnsLocation) (ec : ℤ) :
    errFrame.leave s (dnsDecErr group field ec s).1 (dnsDecErr group field ec s).2 := by
  unfold dnsDecErr
  split
  · exact ⟨rfl, .inr ⟨rfl, rfl⟩⟩
  · next h => exact ⟨rfl, .inl ⟨rfl, by omega, _, rfl⟩⟩

theorem errFrame_allows : Allows 0 errFrame where
  put s w b _ := ⟨put_errs s w b, by rw [put_msg]⟩
  move _ _ _ := ⟨rfl, rfl⟩
  load _ _ h := ⟨rfl, h.hdr⟩
  err := errFrame_err
  fail _ := ⟨rfl, .inr ⟨rfl, rfl⟩⟩
  report _ _ := ⟨rfl, rfl⟩
  reads _ := trivial
  writes _ := trivial
  strings _ := trivial

theorem rrBody_errs (env : DecEnv) (sc : Sect) : Keeps errFrame (rrBody env sc) :=
  keeps_rrBody errFrame_allows env sc rfl (fun _ _ _ => ⟨rfl, rfl⟩) fun s =>
    ⟨rfl, hdr_countUp s.msg sc⟩

theorem keeps_qdName {F : Frame DecState ℤ Fault} (hF : AllowsFill 0 F) (env : DecEnv) :
    Keeps F (qdName env) := by
  refine (keeps_decodeNameAt hF env (Nat.zero_le 0)).bind fun r => ?_
  cases r with
  | error ec => exact keeps_retErr hF _ _ _
  | ok n => exact keeps_pure _

theorem keeps_qdFixed {F : Frame DecState ℤ Fault} (hF : AllowsFill 0 F) (env : DecEnv) :
    Keeps F (qdFixed env) :=
  keeps_getOffset.bind fun _ => (keeps_when _ fun _ => keeps_retErr hF _ _ _).bind fun _ =>
    (keeps_readBytes hF env _ _).bind fun _ => (keeps_advance hF 4).bind fun _ => keeps_pure _

section Question

variable {F : Frame DecState ℤ Fault} (hF : Allows 0 F)
  (hquest : ∀ s qd n (h : n ≤ dnsMaxQd),
    F.keep s { s with msg := { s.msg with qd := qd, qdLen := n, qd_fits := h } })
include hF hquest

theorem keeps_loadQd (qtype qclass : UInt16) : Keeps F (loadQd qtype qclass) := by
  refine (keeps_msgStr hF.toAllowsFill 0).bind fun t => ?_
  have hnone (s : DecState) : F.keep s { s with msg.qd.qname := .null } :=
    hquest s { s.msg.qd with qname := .null } s.msg.qdLen s.msg.qd_fits
  have hsome (s : DecState) {off : ℕ} {st : NameStore}
      (hst : msgStoreStr s.msg.store t = some (off, st)) :
      F.keep s { s with msg := addQd { s.msg with store := st } ⟨.ref off, qtype, qclass⟩ } := by
    have hstore := hF.load s _ (.store hst)
    unfold addQd
    split
    · next h => exact F.trans hstore (hquest { s with msg := { s.msg with store := st } } _ _ h)
    · exact hstore
  constructor
  · intro s a u h
    rw [bind_of_ok (get_run s)] at h
    cases hst : msgStoreStr s.msg.store t with
    | none =>
      rw [hst] at h
      cases h
    | some p =>
      rw [hst] at h
      cases h
      exact hsome s hst
  · intro s e u h
    rw [bind_of_ok (get_run s)] at h
    cases hst : msgStoreStr s.msg.store t with
    | none =>
      rw [hst] at h
      cases h
      exact F.lift (hnone s) (hF.fail _)
    | some p =>
      rw [hst] at h
      cases h
  · intro s c h
    rw [bind_of_ok (get_run s)] at h
    cases hst : msgStoreStr s.msg.store t with
    | none =>
      rw [hst] at h
      cases h
    | some p =>
      rw [hst] at h
      cases h

theorem keeps_qdBody (env : DecEnv) : Keeps F (qdBody env) := by
  refine Keeps.bind ?_ fun _ => (keeps_qdName hF.toAllowsFill env).bind fun n =>
    (keeps_qdFixed hF.toAllowsFill env).bind fun p => Keeps.bind ?_ fun _ => ?_
  · exact keeps_get.bind fun _ => keeps_when _ fun _ => keeps_exit_fail hF.toAllowsFill
  · exact keeps_when _ fun _ => keeps_loadQd hF hquest _ _
  · split
    · exact (keeps_msgStr hF.toAllowsFill 0).bind fun _ => keeps_dnsWmsg hF.report env _
    · exact keeps_pure _

end Question

theorem qdBody_errs (env : DecEnv) : Keeps errFrame (qdBody env) :=
  keeps_qdBody errFrame_allows (fun _ _ _ _ => ⟨rfl, rfl⟩) env

structure Calls (F : Frame DecState ℤ Fault) : Prop where
  err : ∀ s group field ec,
    F.leave s (dnsDecErr group field ec s).1 (dnsDecErr group field ec s).2
  ret : ∀ s c, F.leave s c s
  back : ∀ s c t, F.leave s c t → F.keep s t

section Sections

variable {F : Frame DecState ℤ Fault} (hF : Calls F)
include hF

theorem keeps_rowStep {entry : Dec ℤ} (h : Keeps F entry) (loc : DnsLocation) (i : ℕ) :
    Keeps F (rowStep entry loc i) :=
  h.bind fun _ => keeps_when _ fun _ => .of_exit fun s => ⟨_, _, rfl, hF.err s _ _ _⟩

theorem keeps_rows {entry : Dec ℤ} (h : Keeps F entry) (loc : DnsLocation) (n : ℕ) :
    Keeps F (rows entry loc n) :=
  keeps_call ((keeps_loop (fun i => keeps_rowStep hF h loc i) 0 n).bind fun _ => keeps_pure _)
    (fun _ _ h => h) hF.back fun _ h => h

theorem keeps_orReturn {x : Dec ℤ} (h : Keeps F x) : Keeps F (orReturn x) :=
  h.bind fun rc => keeps_when _ fun _ => keeps_exit fun s => hF.ret s rc

theorem keeps_decodeSects {env : DecEnv} (h : ∀ sc, Keeps F (dnsRrDecode env sc))
    (scs : List Sect) : Keeps F (decodeSects env scs) := by
  induction scs with
  | nil => exact keeps_pure _
  | cons sc rest ih =>
    exact (keeps_orReturn hF (keeps_get.bind fun _ => keeps_rows hF (h sc) _ _)).bind fun _ => ih

theorem keeps_decodeQd {env : DecEnv} (h : Keeps F (dnsQdDecode env)) : Keeps F (decodeQd env) :=
  keeps_get.bind fun _ => keeps_rows hF h _ _

end Sections

def growFrame : Frame DecState ℤ Fault where
  keep s t := s.dec.errs <+: t.dec.errs ∧ t.msg.hdr = s.msg.hdr
  leave s _ t := s.dec.errs <+: t.dec.errs ∧ t.msg.hdr = s.msg.hdr
  raise _ := True
  refl _ := ⟨List.prefix_rfl, rfl⟩
  trans h1 h2 := ⟨h1.1.trans h2.1, h2.2.trans h1.2⟩
  lift h1 h2 := ⟨h1.1.trans h2.1, h2.2.trans h1.2⟩

theorem growFrame_err (s : DecState) (group field : DnsLocation) (ec : ℤ) :
    s.dec.errs <+: (dnsDecErr group field ec s).2.dec.errs ∧
      (dnsDecErr group field ec s).2.msg.hdr = s.msg.hdr := by
  unfold dnsDecErr
  split
  · exact ⟨List.prefix_rfl, rfl⟩
  · exact ⟨List.prefix_append _ _, rfl⟩

theorem growFrame_calls : Calls growFrame where
  err := growFrame_err
  ret _ _ := ⟨List.prefix_rfl, rfl⟩
  back _ _ _ h := h

theorem grows_entry {x : Dec ℤ} (hx : Keeps errFrame x) : Keeps growFrame (call x : Dec ℤ) := by
  refine keeps_call hx (fun s t h => ⟨h.1 ▸ List.prefix_rfl, h.2⟩) (fun s r t h => ⟨?_, h.1⟩)
    fun _ _ => trivial
  rcases h.2 with ⟨-, -, err, he⟩ | ⟨-, he⟩
  · rw [he]
    exact List.prefix_append _ _
  · rw [he]

theorem grows_dnsRrDecode (env : DecEnv) (sc : Sect) : Keeps growFrame (dnsRrDecode env sc) :=
  grows_entry (rrBody_errs env sc)

theorem grows_dnsQdDecode (env : DecEnv) : Keeps growFrame (dnsQdDecode env) :=
  grows_entry (qdBody_errs env)

theorem nil_of_grown {s t : DecState} (h : s.dec.errs <+: t.dec.errs) (ht : t.dec.errs = []) :
    s.dec.errs = [] := by
  rw [ht] at h
  exact List.prefix_nil.mp h

/-- An entry that returned zero on an empty stack fell through to its end. -/
theorem entry_clean {x : Dec ℤ} (hx : Keeps errFrame x) {s t : DecState}
    (h : (call x : Dec ℤ) s = .ok 0 t) (ht : t.dec.errs = []) :
    s.dec.errs = [] ∧ x s = .ok 0 t := by
  rcases (call_ok _ _ _ _).mp h with h | h
  · exact ⟨(hx.ok h).1 ▸ ht, h⟩
  · rcases (hx.exit h).2 with ⟨-, -, err, he⟩ | ⟨hc, -⟩
    · simp [ht] at he
    · simp at hc

theorem rowStep_ok {entry : Dec ℤ} {loc : DnsLocation} {i : ℕ} {s t : DecState} {u : Unit} :
    rowStep entry loc i s = .ok u t ↔ entry s = .ok 0 t := by
  unfold rowStep
  rw [bind_ok]
  constructor
  · rintro ⟨rc, m, he, hw⟩
    by_cases hrc : rc = 0
    · rw [when_neg (by simpa using hrc)] at hw
      cases hw
      exact hrc ▸ he
    · rw [when_pos hrc] at hw
      cases hw
  · intro h
    exact ⟨0, t, h, rfl⟩

/-- Rows that returned zero on an empty stack: all of them were decoded. -/
theorem rows_clean {x : Dec ℤ} (hx : Keeps errFrame x) {loc : DnsLocation} {n : ℕ}
    {s t : DecState} {rc : ℤ} (h : rows (call x) loc n s = .ok rc t) (hrc : rc = 0)
    (ht : t.dec.errs = []) :
    s.dec.errs = [] ∧ loop (rowStep (call x) loc) 0 n s = .ok () t ∧
      Linked (fun v u => x v.2 = .ok 0 u ∧ u.dec.errs = []) Prod.snd s
        (visits (rowStep (call x) loc) 0 n s) t := by
  subst hrc
  rcases (call_ok _ _ _ _).mp h with h | h
  · obtain ⟨_, m, hl, h⟩ := (bind_ok _ _ _ _ _).mp h
    cases h
    have hstep (v : ℕ × DecState) (u : DecState) (hv : rowStep (call x) loc v.1 v.2 = .ok () u)
        (hu : u.dec.errs = []) : v.2.dec.errs = [] ∧ x v.2 = .ok 0 u ∧ u.dec.errs = [] := by
      obtain ⟨h1, h2⟩ := entry_clean hx (rowStep_ok.mp hv) hu
      exact ⟨h1, h2, hu⟩
    obtain ⟨hs, hlink⟩ := (loop_linked 0 n s t hl).backward (fun s => s.dec.errs = []) hstep ht
    exact ⟨hs, hl, hlink⟩
  · exfalso
    -- An early exit with code zero has pushed an error.
    rcases (bind_exit _ _ _ _ _).mp h with h | ⟨_, _, _, h⟩
    · have hbody : ∀ k i s, loop (rowStep (call x) loc) i k s = .exit 0 t → t.dec.errs ≠ [] := by
        intro k
        induction k with
        | zero =>
          intro i s h
          cases h
        | succ k ih =>
          intro i s h
          rcases (bind_exit _ _ _ _ _).mp h with h | ⟨_, m, hm, h⟩
          · unfold rowStep at h
            rcases (bind_exit _ _ _ _ _).mp h with h | ⟨rc, m, hm, h⟩
            · exact absurd h (call_ne_exit _ _ _ _)
            · by_cases hrc : rc ≠ 0
              · rw [when_pos hrc] at h
                simp only [retErr, dnsDecErr, Outcome.exit.injEq] at h
                split at h
                · simp at h
                · rw [← h.2]
                  simp
              · rw [when_neg hrc] at h
                cases h
          · exact ih _ _ h
      exact hbody n 0 s h ht
    · cases h

theorem orReturn_ok {x : Dec ℤ} {s t : DecState} {u : Unit} :
    orReturn x s = .ok u t ↔ x s = .ok 0 t := by
  unfold orReturn
  rw [bind_ok]
  constructor
  · rintro ⟨rc, m, he, hw⟩
    by_cases hrc : rc = 0
    · rw [when_neg (by simpa using hrc)] at hw
      cases hw
      exact hrc ▸ he
    · rw [when_pos hrc] at hw
      cases hw
  · intro h
    exact ⟨0, t, h, rfl⟩

def RecordStep (env : DecEnv) (v : Sect × DecState) (u : DecState) : Prop :=
  rrBody env v.1 v.2 = .ok 0 u ∧ u.dec.errs = []

theorem decodeSects_clean {env : DecEnv} {scs : List Sect} {s t : DecState}
    (h : decodeSects env scs s = .ok () t) (ht : t.dec.errs = []) :
    s.dec.errs = [] ∧ Linked (RecordStep env) Prod.snd s (sectsVisits env scs s) t := by
  induction scs generalizing s with
  | nil =>
    cases h
    exact ⟨ht, rfl⟩
  | cons sc rest ih =>
    obtain ⟨_, m, hm, hr⟩ := (bind_ok _ _ _ _ _).mp h
    obtain ⟨hmerrs, hrest⟩ := ih hr
    have hsect := orReturn_ok.mp hm
    rw [decodeSect, bind_of_ok (get_run s)] at hsect
    obtain ⟨hs, -, hlink⟩ := rows_clean (rrBody_errs env sc) hsect rfl hmerrs
    refine ⟨hs, ?_⟩
    have hmap : Linked (RecordStep env) Prod.snd s (sectVisits env sc s) m :=
      linked_map (fun v : ℕ × DecState => (sc, v.2)) (fun _ => rfl) (fun _ _ h => h) hlink
    rw [sectsVisits, hm, linked_append]
    exact ⟨m, hmap, hrest⟩

def hdrOf (pkt : Bytes) : DnsHdr := dnsHdrDecode (slice pkt 0 dnsHdrLen)

def hdrState (pkt : Bytes) (s : DecState) : DecState :=
  { moveTo s (s.dec.offset+dnsHdrLen) with
    dec.hdr := hdrOf pkt
    msg := { s.msg with hdr := hdrOf pkt } }

theorem hdrBody_run {env : DecEnv} (he : env.needEmsg = true) (h : dnsHdrLen ≤ env.pkt.length)
    (s : DecState) :
    hdrBody env s = (checkFlags (hdrOf env.pkt).flags >>= fun _ =>
      dnsWmsg env (hdrLine (hdrOf env.pkt))) (hdrState env.pkt s) := by
  unfold hdrBody
  rw [when_neg (by omega), bind_of_ok (pure_run _ _),
    bind_of_ok (readBytes_run env (i := 0) (n := dnsHdrLen) (.inr (by omega)) s),
    bind_of_ok (modify_run _ _), bind_of_ok (advance_run _ _), when_neg (by simp [he]),
    bind_of_ok (pure_run _ _), bind_of_ok (modify_run _ _)]
  rfl

theorem dnsWmsg_ok {env : DecEnv} {text : Bytes} {s t : DecState} {rc : ℤ}
    (h : dnsWmsg env text s = .ok rc t) :
    t.dec.errs = s.dec.errs ∧ t.dec.offset = s.dec.offset ∧ t.msg = s.msg := by
  unfold dnsWmsg at h
  dsimp only at h
  split_ifs at h <;> cases h <;> exact ⟨rfl, rfl, rfl⟩

theorem checkFlags_ok {flags : UInt16} {s t : DecState} {u : Unit}
    (h : checkFlags flags s = .ok u t) :
    s.dec.errs <+: t.dec.errs ∧ t.dec.offset = s.dec.offset ∧ t.msg = s.msg := by
  have hpush (field : DnsLocation) (ec : ℤ) (h : pushErr .pdu field ec s = .ok u t) :
      s.dec.errs <+: t.dec.errs ∧ t.dec.offset = s.dec.offset ∧ t.msg = s.msg := by
    simp only [pushErr, modify_run, Outcome.ok.injEq, true_and, dnsDecErr] at h
    split at h
    · cases h
      exact ⟨List.prefix_rfl, rfl, rfl⟩
    · cases h
      exact ⟨List.prefix_append _ _, rfl, rfl⟩
  unfold checkFlags Run.when at h
  split_ifs at h
  · exact hpush _ _ h
  · cases h
    exact ⟨List.prefix_rfl, rfl, rfl⟩
  · exact hpush _ _ h
  · cases h
    exact ⟨List.prefix_rfl, rfl, rfl⟩

theorem decodeHdr_clean {env : DecEnv} (he : env.needEmsg = true) {s t : DecState}
    (h : decodeHdr env s = .ok 0 t) (ht : t.dec.errs = []) :
    dnsHdrLen ≤ env.pkt.length ∧ s.dec.errs = [] ∧ hdrBody env s = .ok 0 t ∧
      t.dec.offset = s.dec.offset+dnsHdrLen ∧ t.msg.hdr = hdrOf env.pkt := by
  by_cases hlen : dnsHdrLen ≤ env.pkt.length
  · have hrun := hdrBody_run he hlen s
    rcases (call_ok _ _ _ _).mp h with h | h
    · obtain ⟨_, m, hm, hw⟩ := (bind_ok _ _ _ _ _).mp (hrun.symm.trans h)
      obtain ⟨hg, hoff, hmsg⟩ := checkFlags_ok hm
      obtain ⟨he', hoff', hmsg'⟩ := dnsWmsg_ok hw
      refine ⟨hlen, nil_of_grown hg (he' ▸ ht), h, hoff'.trans hoff, ?_⟩
      rw [hmsg', hmsg]
      rfl
    · rcases (bind_exit _ _ _ _ _).mp (hrun.symm.trans h) with h | ⟨_, _, _, h⟩
      · unfold checkFlags Run.when at h
        split_ifs at h <;> cases h
      · unfold dnsWmsg at h
        dsimp only at h
        split_ifs at h
  · exfalso
    have hx : hdrBody env s = .exit (dnsDecErr .pdu .hdr DnsEc.ehdrlen.code s).1
        (dnsDecErr .pdu .hdr DnsEc.ehdrlen.code s).2 := by
      unfold hdrBody
      rw [when_pos (by omega)]
      rfl
    rcases (call_ok _ _ _ _).mp h with h | h
    · rw [hx] at h
      cases h
    · rw [hx] at h
      simp only [dnsDecErr, Outcome.exit.injEq] at h
      split at h
      · simp at h
      · rw [← h.2] at ht
        simp at ht

theorem decodeFront_clean {env : DecEnv} (he : env.needEmsg = true) {m : DnsMsg} {t : DecState}
    (h : decodeFront env (initState m) = .ok () t) (ht : t.dec.errs = []) :
    dnsHdrLen ≤ env.pkt.length ∧ ∃ s, hdrBody env (initState (dnsMsgReset m)) = .ok 0 s ∧
      s.dec.errs = [] ∧ s.dec.offset = dnsHdrLen ∧ s.msg.hdr = hdrOf env.pkt ∧
      loop (rowStep (dnsQdDecode env) .qd) 0 (hdrOf env.pkt).qdCount.toNat s = .ok () t ∧
      Linked (fun v u => qdBody env v.2 = .ok 0 u ∧ u.dec.errs = []) Prod.snd s
        (visits (rowStep (dnsQdDecode env) .qd) 0 (hdrOf env.pkt).qdCount.toNat s) t := by
  unfold decodeFront at h
  rw [bind_of_ok (modify_run _ _)] at h
  obtain ⟨_, s, hs, h⟩ := (bind_ok _ _ _ _ _).mp h
  have hq := orReturn_ok.mp h
  rw [decodeQd, bind_of_ok (get_run s)] at hq
  obtain ⟨hserrs, hloop, hlink⟩ := rows_clean (qdBody_errs env) hq rfl ht
  obtain ⟨hlen, -, hbody, hoff, hhdr⟩ := decodeHdr_clean he (orReturn_ok.mp hs) hserrs
  rw [hhdr] at hloop hlink
  exact ⟨hlen, s, hbody, hserrs, by simpa [initState, initDec] using hoff, hhdr, hloop, hlink⟩

/-- Early exits of `decode_msg` carry a code that is not zero. -/
def codeFrame : Frame DecState ℤ Fault where
  keep _ _ := True
  leave _ c _ := c ≠ 0
  raise _ := True
  refl _ := trivial
  trans _ _ := trivial
  lift _ h := h

theorem coded_orReturn {x : Dec ℤ} (hx : ∀ s c t, x s ≠ .exit c t) :
    Keeps codeFrame (orReturn x) := by
  constructor
  · exact fun _ => trivial
  · intro s c t h
    rcases (bind_exit _ _ _ _ _).mp h with h | ⟨rc, m, _, h⟩
    · exact absurd h (hx s c t)
    · by_cases hrc : rc ≠ 0
      · rw [when_pos hrc] at h
        cases h
        exact hrc
      · rw [when_neg hrc] at h
        cases h
  · exact fun _ => trivial

theorem decodeSect_ne_exit (env : DecEnv) (sc : Sect) (s t : DecState) (c : ℤ) :
    decodeSect env sc s ≠ .exit c t := by
  rw [decodeSect, bind_of_ok (get_run s)]
  exact call_ne_exit _ _ _ _

theorem coded_decodeSects (env : DecEnv) (scs : List Sect) :
    Keeps codeFrame (decodeSects env scs) := by
  induction scs with
  | nil => exact keeps_pure _
  | cons sc rest ih =>
    exact (coded_orReturn fun s c t => decodeSect_ne_exit env sc s t c).bind fun _ => ih

theorem coded_decodeFront (env : DecEnv) : Keeps codeFrame (decodeFront env) :=
  (keeps_modify fun _ => trivial).bind fun _ =>
    (coded_orReturn fun _ _ _ => call_ne_exit _ _ _ _).bind fun _ =>
    coded_orReturn fun s _ _ => by
      rw [decodeQd, bind_of_ok (get_run s)]
      exact call_ne_exit _ _ _ _

theorem sizeCheck_ne_exit (env : DecEnv) (s t : DecState) (c : ℤ) :
    sizeCheck env s ≠ .exit c t := by
  rw [sizeCheck, bind_of_ok (get_run s)]
  split
  · unfold dnsWmsg
    dsimp only
    split_ifs <;> simp
  · simp

/-- `decode_msg` returns zero only from its last statement. -/
theorem decodeMsg_zero {env : DecEnv} {s t : DecState} (h : decodeMsg env s = .ok 0 t) :
    ∃ s0 t1, decodeFront env s = .ok () s0 ∧ decodeSects env [.an, .ns, .ar] s0 = .ok () t1 ∧
      sizeCheck env t1 = .ok 0 t := by
  rcases (call_ok _ _ _ _).mp h with h | h
  · obtain ⟨_, s0, h0, h⟩ := (bind_ok _ _ _ _ _).mp h
    obtain ⟨_, t1, h1, h⟩ := (bind_ok _ _ _ _ _).mp h
    exact ⟨s0, t1, h0, h1, h⟩
  · exfalso
    rcases (bind_exit _ _ _ _ _).mp h with h | ⟨_, s0, h0, h⟩
    · exact (coded_decodeFront env).exit h rfl
    rcases (bind_exit _ _ _ _ _).mp h with h | ⟨_, t1, h1, h⟩
    · exact (coded_decodeSects env _).exit h rfl
    · exact sizeCheck_ne_exit env t1 t 0 h

theorem sizeCheck_ok {env : DecEnv} {s t : DecState} {rc : ℤ} (h : sizeCheck env s = .ok rc t) :
    t.dec.errs = s.dec.errs ∧ t.dec.offset = s.dec.offset := by
  rw [sizeCheck, bind_of_ok (get_run s)] at h
  split at h
  · exact ⟨(dnsWmsg_ok h).1, (dnsWmsg_ok h).2.1⟩
  · cases h
    exact ⟨rfl, rfl⟩

/-- What `dns_dec_genmsg` returns: whether the stack holds an error. -/
theorem dnsDecGenmsg_ok {env : DecEnv} {s t : DecState} {ec : ℤ}
    (h : dnsDecGenmsg env s = .ok ec t) :
    (s.dec.errs = [] ∧ ec = 0 ∧ t.dec.offset = s.dec.offset ∧ t.dec.errs = []) ∨
      (s.dec.errs ≠ [] ∧ ec = decErr) := by
  rw [dnsDecGenmsg, bind_of_ok (get_run s)] at h
  split at h
  · next herrs =>
    obtain ⟨_, m, hm, h⟩ := (bind_ok _ _ _ _ _).mp h
    cases h
    refine .inl ⟨herrs, rfl, ?_⟩
    by_cases hroom : env.emsgLen ≤ s.dec.emsg.text.length
    · rw [when_pos hroom] at hm
      obtain ⟨_, m', hw, hp⟩ := (bind_ok _ _ _ _ _).mp hm
      cases hp
      obtain ⟨h1, h2, -⟩ := dnsWmsg_ok hw
      exact ⟨h2, h1.trans herrs⟩
    · rw [when_neg hroom] at hm
      cases hm
      exact ⟨rfl, herrs⟩
  · next herrs =>
    obtain ⟨_, _, _, h⟩ := (bind_ok _ _ _ _ _).mp h
    obtain ⟨_, _, _, h⟩ := (bind_ok _ _ _ _ _).mp h
    obtain ⟨_, _, _, h⟩ := (bind_ok _ _ _ _ _).mp h
    obtain ⟨_, _, _, h⟩ := (bind_ok _ _ _ _ _).mp h
    cases h
    exact .inr ⟨herrs, rfl⟩

/-- An accepted packet: the stack stayed empty and every part returned zero. -/
theorem dnsValidate_zero {pkt : Bytes} {emsgLen : ℕ} {t : DecState}
    (h : dnsValidate pkt emsgLen = .ok 0 t) :
    ∃ s0 t1 t2, decodeFront (validateEnv pkt emsgLen) (initState (zeroMsg 0)) = .ok () s0 ∧
      decodeSects (validateEnv pkt emsgLen) [.an, .ns, .ar] s0 = .ok () t1 ∧
      sizeCheck (validateEnv pkt emsgLen) t1 = .ok 0 t2 ∧
      s0.dec.errs = [] ∧ t1.dec.errs = [] ∧ t.dec.offset = t1.dec.offset := by
  obtain ⟨rc, t2, hmsg, h⟩ := (bind_ok _ _ _ _ _).mp h
  obtain ⟨ec, t3, hgen, h⟩ := (bind_ok _ _ _ _ _).mp h
  simp only [pure_run, Outcome.ok.injEq] at h
  obtain ⟨hrc, rfl⟩ := h
  rcases dnsDecGenmsg_ok hgen with ⟨herrs, rfl, hoff, -⟩ | ⟨herrs, rfl⟩
  · have : rc = 0 := by simpa using hrc
    subst this
    obtain ⟨s0, t1, h0, h1, h2⟩ := decodeMsg_zero hmsg
    obtain ⟨he, ho⟩ := sizeCheck_ok h2
    have ht1 : t1.dec.errs = [] := he ▸ herrs
    have hs0 := nil_of_grown ((keeps_decodeSects growFrame_calls (grows_dnsRrDecode _) _).ok
      h1).1 ht1
    exact ⟨s0, t1, t2, h0, h1, h2, hs0, ht1, hoff.trans ho⟩
  · exfalso
    by_cases hz : rc = 0
    · simp [hz] at hrc
    · simp [hz] at hrc

/-- The records of an accepted packet follow one another. -/
theorem recordVisits_linked {env : DecEnv} {m : DnsMsg} {s0 t1 : DecState}
    (h0 : decodeFront env (initState m) = .ok () s0)
    (h1 : decodeSects env [.an, .ns, .ar] s0 = .ok () t1) (ht : t1.dec.errs = []) :
    Linked (RecordStep env) Prod.snd s0 (recordVisits env m) t1 := by
  rw [recordVisits, h0]
  exact (decodeSects_clean h1 ht).2

end DnsPkt.AcceptedRun
