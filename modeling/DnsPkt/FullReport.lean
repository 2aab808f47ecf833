import DnsPkt.StoppedDecode

/-!
# The report without a bound

The report of a packet is its header line, the lines of its entries and the
line about its size. It is written here without regard to the report buffer.
A validating run accepts a packet exactly when the whole report can be
written this way and is shorter than the buffer.
-/

set_option autoImplicit false

namespace DnsPkt.FullReport
open DnsPkt.CheckedRun DnsPkt.CheckedRun.Run DnsPkt.Octets DnsPkt.Protocol
open DnsPkt.MessageStore DnsPkt.RecordDecoder DnsPkt.MessageDecoder DnsPkt.RecordRun
open DnsPkt.RecordFrame DnsPkt.MessageRun DnsPkt.AcceptedRun DnsPkt.SelfDelimiting
open DnsPkt.ReportedRecord DnsPkt.ScratchText DnsPkt.MessageParts DnsPkt.StoppedDecode

def tellEntry (pkt : Bytes) (p : Part) : Dec Unit := do
  let line ← p.line (validateEnv pkt 0)
  modify fun s => told s line

def tellParts (pkt : Bytes) : List Part → Dec Unit
  | [] => pure ()
  | p :: rest => do
    let s ← get
    loop (fun _ => tellEntry pkt p) 0 (p.count s.msg.hdr)
    tellParts pkt rest

def headTold (pkt : Bytes) : DecState :=
  told (hdrState pkt (initState (dnsMsgReset (zeroMsg 0)))) (hdrLine (hdrOf pkt))

def sizeTold (pkt : Bytes) (s : DecState) : DecState :=
  if s.dec.udpSize < pkt.length then told s (sizeLine pkt.length s.dec.udpSize) else s

/-- The codes for which the header check records an error. -/
def flagsRefused (flags : UInt16) : Bool :=
  if flagSet flags 15 then badRcode flags else badOpcode flags

def fullRun (pkt : Bytes) : Option DecState :=
  if dnsHdrLen ≤ pkt.length ∧ flagsRefused (hdrOf pkt).flags = false then
    match tellParts pkt allParts (headTold pkt) with
    | .ok _ t => some (sizeTold pkt t)
    | _ => none
  else none

/-- The report of a packet whose header and entries are all in order. -/
def fullReport (pkt : Bytes) : Option Bytes := (fullRun pkt).map fun t => t.dec.emsg.text

theorem fullRun_some {pkt : Bytes} {t : DecState} : fullRun pkt = some t ↔
    dnsHdrLen ≤ pkt.length ∧ flagsRefused (hdrOf pkt).flags = false ∧
      ∃ u, tellParts pkt allParts (headTold pkt) = .ok () u ∧ t = sizeTold pkt u := by
  unfold fullRun
  split_ifs with h
  · cases hrun : tellParts pkt allParts (headTold pkt) with
    | ok x u => simp [h, eq_comm]
    | exit e u => simp
    | fault f => simp
  · simp only [false_iff]
    exact fun hn => h ⟨hn.1, hn.2.1⟩

def tellFrame : Frame DecState ℤ Fault where
  keep s t := t.dec.errs = s.dec.errs ∧ s.dec.emsg.text <+: t.dec.emsg.text
  leave _ _ _ := True
  raise _ := True
  refl _ := ⟨rfl, List.prefix_rfl⟩
  trans h1 h2 := ⟨h2.1.trans h1.1, h1.2.trans h2.2⟩
  lift _ _ := trivial

theorem told_text (s : DecState) (line : Bytes) :
    (told s line).dec.emsg.text = s.dec.emsg.text ++ line := rfl

theorem tellEntry_run {pkt : Bytes} {p : Part} {s t : DecState} :
    tellEntry pkt p s = .ok () t ↔
      ∃ line u, p.line (validateEnv pkt 0) s = .ok line u ∧ t = told u line := by
  rw [tellEntry, bind_ok]
  simp only [modify_run, Outcome.ok.injEq, true_and, eq_comm]

theorem tellEntry_keeps (pkt : Bytes) (p : Part) : Keeps tellFrame (tellEntry pkt p) := by
  refine Keeps.bind ⟨fun h => ?_, fun _ => trivial, fun _ => trivial⟩ fun line =>
    keeps_modify fun s => ⟨rfl, List.prefix_append _ _⟩
  obtain ⟨hemsg, herrs, -⟩ := (line_keeps _ p).ok h
  exact ⟨herrs, hemsg ▸ List.prefix_rfl⟩

theorem tellParts_keeps (pkt : Bytes) (ps : List Part) : Keeps tellFrame (tellParts pkt ps) := by
  induction ps with
  | nil => exact keeps_pure _
  | cons p rest ih =>
    exact keeps_get.bind fun _ =>
      (keeps_loop (fun _ => tellEntry_keeps pkt p) 0 _).bind fun _ => ih

section Fits

variable {pkt : Bytes} {emsgLen : ℕ}

theorem loop_of_tell {p : Part} {i n : ℕ} {s t : DecState}
    (h : loop (fun _ => tellEntry pkt p) i n s = .ok () t)
    (hfit : t.dec.emsg.text.length < emsgLen) :
    loop (rowStep (p.entry (validateEnv pkt emsgLen)) p.loc) i n s = .ok () t := by
  induction n generalizing i s with
  | zero => exact h
  | succ n ih =>
    obtain ⟨_, m, hm, hrest⟩ := (bind_ok _ _ _ _ _).mp h
    obtain ⟨line, u, hline, rfl⟩ := tellEntry_run.mp hm
    have hmore := ((keeps_loop (fun _ => tellEntry_keeps pkt p) _ n).ok hrest).2.length_le
    have hsame : u.dec.emsg = s.dec.emsg := ((line_keeps _ p).ok hline).1
    rw [told_text, hsame, List.length_append] at hmore
    have hentry : p.entry (validateEnv pkt emsgLen) s = .ok 0 (told u line) :=
      (call_ok _ _ _ _).mpr (.inl (entry_told hline (hmore.trans_lt hfit)))
    rw [loop_succ_of_ok (rowStep_ok (u := ()) |>.mpr hentry)]
    exact ih hrest

theorem parts_of_tell {ps : List Part} {s t : DecState} (h : tellParts pkt ps s = .ok () t)
    (hfit : t.dec.emsg.text.length < emsgLen) :
    decodeParts (validateEnv pkt emsgLen) ps s = .ok () t := by
  induction ps generalizing s with
  | nil => exact h
  | cons p rest ih =>
    rw [tellParts, bind_of_ok (get_run s)] at h
    obtain ⟨_, m, hm, hrest⟩ := (bind_ok _ _ _ _ _).mp h
    have hmore := ((tellParts_keeps pkt rest).ok hrest).2.length_le
    have hloop := loop_of_tell hm (hmore.trans_lt hfit)
    have hpart : decodePart (validateEnv pkt emsgLen) p s = .ok 0 m := by
      rw [decodePart, bind_of_ok (get_run s)]
      exact rows_of_loop hloop
    rw [decodeParts, bind_of_ok (orReturn_ok (u := ()) |>.mpr hpart)]
    exact ih hrest

theorem checkFlags_accepts {flags : UInt16} (h : flagsRefused flags = false) (s : DecState) :
    checkFlags flags s = .ok () s := by
  unfold flagsRefused at h
  unfold checkFlags
  split_ifs at h ⊢ with hqr
  · rw [when_neg (by simp [h])]
    rfl
  · rw [when_neg (by simp [h])]
    rfl

theorem dnsDecErr_ne_nil (group field : DnsLocation) (ec : ℤ) (s : DecState) :
    (dnsDecErr group field ec s).2.dec.errs ≠ [] := by
  unfold dnsDecErr
  split
  · next hfull => exact List.ne_nil_of_length_pos (Nat.lt_of_lt_of_le (by decide) hfull)
  · simp

theorem checkFlags_clean {flags : UInt16} {s t : DecState} {u : Unit}
    (h : checkFlags flags s = .ok u t) (ht : t.dec.errs = []) :
    flagsRefused flags = false ∧ t = s := by
  have hcheck (bad : Bool) (ec : ℤ)
      (hrun : when (bad = true) (pushErr .pdu .hdr ec) s = .ok u t) : bad = false ∧ t = s := by
    cases bad with
    | false =>
      cases hrun
      exact ⟨rfl, rfl⟩
    | true =>
      cases hrun
      exact absurd ht (dnsDecErr_ne_nil _ _ _ s)
  unfold checkFlags at h
  unfold flagsRefused
  split_ifs at h ⊢ with hqr
  · exact hcheck _ _ h
  · exact hcheck _ _ h

theorem head_of_report (hlen : dnsHdrLen ≤ pkt.length)
    (hflags : flagsRefused (hdrOf pkt).flags = false)
    (hfit : (headTold pkt).dec.emsg.text.length < emsgLen) :
    decodeHead (validateEnv pkt emsgLen) (initState (zeroMsg 0)) = .ok () (headTold pkt) := by
  have hbody : hdrBody (validateEnv pkt emsgLen) (initState (dnsMsgReset (zeroMsg 0))) =
      .ok 0 (headTold pkt) := by
    rw [hdrBody_run rfl hlen]
    refine (bind_of_ok (checkFlags_accepts hflags _) _).trans ?_
    apply dnsWmsg_fits
    exact List.length_append ▸ hfit
  rw [decodeHead, bind_of_ok (modify_run _ _)]
  exact orReturn_ok.mpr ((call_ok _ _ _ _).mpr (.inl hbody))

theorem size_of_report {t : DecState} (hfit : (sizeTold pkt t).dec.emsg.text.length < emsgLen) :
    sizeCheck (validateEnv pkt emsgLen) t = .ok 0 (sizeTold pkt t) := by
  have he : (validateEnv pkt emsgLen).needEmsg = true := rfl
  rw [sizeCheck, bind_of_ok (get_run t)]
  unfold sizeTold at *
  by_cases hsize : t.dec.udpSize < pkt.length
  · rw [if_pos hsize] at hfit
    rw [if_pos ⟨he, hsize⟩, if_pos hsize]
    apply dnsWmsg_fits
    exact List.length_append ▸ hfit
  · rw [if_neg fun h => hsize h.2, if_neg hsize]
    rfl

theorem sizeTold_keeps (pkt : Bytes) (s : DecState) : tellFrame.keep s (sizeTold pkt s) := by
  unfold sizeTold
  split
  · exact ⟨rfl, List.prefix_append _ _⟩
  · exact tellFrame.refl s

theorem genmsg_of_report {env : DecEnv} {s : DecState} (herrs : s.dec.errs = [])
    (hfit : s.dec.emsg.text.length < env.emsgLen) : dnsDecGenmsg env s = .ok 0 s := by
  rw [dnsDecGenmsg, bind_of_ok (get_run s), if_pos herrs, bind_when_neg (Nat.not_le.mpr hfit)]
  rfl

theorem validate_of_report {t : DecState} (h : fullRun pkt = some t)
    (hfit : t.dec.emsg.text.length < emsgLen) : dnsValidate pkt emsgLen = .ok 0 t := by
  obtain ⟨hlen, hflags, u, hrun, rfl⟩ := fullRun_some.mp h
  obtain ⟨herrs, htold⟩ := (tellParts_keeps pkt allParts).ok hrun
  obtain ⟨hsizeErrs, hsizeTold⟩ := sizeTold_keeps pkt u
  have hufit := hsizeTold.length_le.trans_lt hfit
  have hhead := head_of_report hlen hflags (htold.length_le.trans_lt hufit)
  have hclean : (sizeTold pkt u).dec.errs = [] := hsizeErrs.trans (herrs.trans rfl)
  rw [validate_of_parts hhead (parts_of_tell hrun hufit), closing,
    bind_of_ok (size_of_report hfit), bind_of_ok (genmsg_of_report hclean hfit)]
  rfl

theorem body_errs (env : DecEnv) (p : Part) : Keeps errFrame (p.body env) := by
  cases p with
  | question => exact qdBody_errs env
  | records sc => exact rrBody_errs env sc

theorem keeps_decodeParts {F : Frame DecState ℤ Fault} (hF : Calls F) {env : DecEnv}
    (h : ∀ p, Keeps F (Part.entry env p)) (ps : List Part) : Keeps F (decodeParts env ps) := by
  induction ps with
  | nil => exact keeps_pure _
  | cons p rest ih =>
    exact (keeps_orReturn hF (keeps_get.bind fun _ => keeps_rows hF (h p) _ _)).bind fun _ => ih

theorem parts_grow (env : DecEnv) (ps : List Part) : Keeps growFrame (decodeParts env ps) :=
  keeps_decodeParts growFrame_calls (fun p => grows_entry (body_errs env p)) ps

theorem tell_of_body {p : Part} {s t : DecState}
    (h : p.body (validateEnv pkt emsgLen) s = .ok 0 t) :
    tellEntry pkt p s = .ok () t ∧ t.dec.emsg.text.length < emsgLen := by
  obtain ⟨line, u, hline, ⟨-, hroom, rfl⟩ | ⟨hc, -⟩⟩ := body_ok h
  · refine ⟨tellEntry_run.mpr ⟨line, u, hline, rfl⟩, ?_⟩
    rw [told_text, ((line_keeps _ p).ok hline).1, List.length_append]
    exact hroom
  · exact absurd hc (by decide)

theorem tell_of_loop {p : Part} {i n : ℕ} {s t : DecState}
    (h : loop (rowStep (p.entry (validateEnv pkt emsgLen)) p.loc) i n s = .ok () t)
    (ht : t.dec.errs = []) (hfit : s.dec.emsg.text.length < emsgLen) :
    loop (fun _ => tellEntry pkt p) i n s = .ok () t ∧ t.dec.emsg.text.length < emsgLen := by
  have hbody := body_errs (validateEnv pkt emsgLen) p
  induction n generalizing i s with
  | zero =>
    cases h
    exact ⟨rfl, hfit⟩
  | succ n ih =>
    obtain ⟨_, m, hm, hrest⟩ := (bind_ok _ _ _ _ _).mp h
    have hgrown := (keeps_loop (fun i => keeps_rowStep growFrame_calls (grows_entry hbody) p.loc i)
      (i+1) n).ok hrest
    obtain ⟨-, hrun⟩ := entry_clean hbody (rowStep_ok.mp hm) (nil_of_grown hgrown.1 ht)
    obtain ⟨htell, hmfit⟩ := tell_of_body hrun
    obtain ⟨hloop, htfit⟩ := ih hrest hmfit
    exact ⟨(bind_of_ok htell _).trans hloop, htfit⟩

theorem tell_of_parts {ps : List Part} {s t : DecState}
    (h : decodeParts (validateEnv pkt emsgLen) ps s = .ok () t)
    (ht : t.dec.errs = []) (hfit : s.dec.emsg.text.length < emsgLen) :
    tellParts pkt ps s = .ok () t ∧ t.dec.emsg.text.length < emsgLen := by
  induction ps generalizing s with
  | nil =>
    cases h
    exact ⟨rfl, hfit⟩
  | cons p rest ih =>
    obtain ⟨_, m, hm, hrest⟩ := (bind_ok _ _ _ _ _).mp h
    have hmerrs := nil_of_grown ((parts_grow _ rest).ok hrest).1 ht
    have hpart := orReturn_ok.mp hm
    rw [decodePart, bind_of_ok (get_run s)] at hpart
    obtain ⟨-, hloop, -⟩ := rows_clean (body_errs _ p) hpart rfl hmerrs
    obtain ⟨htell, hmfit⟩ := tell_of_loop hloop hmerrs hfit
    obtain ⟨hparts, htfit⟩ := ih hrest hmfit
    refine ⟨?_, htfit⟩
    rw [tellParts, bind_of_ok (get_run s), bind_of_ok htell]
    exact hparts

theorem line_of_wmsg {text : Bytes} {s t : DecState}
    (h : dnsWmsg (validateEnv pkt emsgLen) text s = .ok 0 t) :
    t = told s text ∧ t.dec.emsg.text.length < emsgLen := by
  unfold dnsWmsg at h
  dsimp only at h
  split_ifs at h with hroom
  · cases h
  · cases h
    refine ⟨rfl, ?_⟩
    have hle : ¬ emsgLen-s.dec.emsg.text.length ≤ text.length := hroom
    simp only [List.length_append]
    omega

theorem report_of_head {s : DecState}
    (h : decodeHead (validateEnv pkt emsgLen) (initState (zeroMsg 0)) = .ok () s)
    (hs : s.dec.errs = []) :
    dnsHdrLen ≤ pkt.length ∧ flagsRefused (hdrOf pkt).flags = false ∧ s = headTold pkt ∧
      s.dec.emsg.text.length < emsgLen := by
  rw [decodeHead, bind_of_ok (modify_run _ _)] at h
  obtain ⟨hlen, -, hbody, -⟩ := decodeHdr_clean rfl (orReturn_ok.mp h) hs
  rw [hdrBody_run rfl hlen] at hbody
  obtain ⟨_, m, hm, hw⟩ := (bind_ok _ _ _ _ _).mp hbody
  obtain ⟨hflags, rfl⟩ := checkFlags_clean hm ((dnsWmsg_ok hw).1 ▸ hs)
  exact ⟨hlen, hflags, line_of_wmsg hw⟩

theorem report_of_size {s t : DecState} (hfit : s.dec.emsg.text.length < emsgLen)
    (h : sizeCheck (validateEnv pkt emsgLen) s = .ok 0 t) :
    t = sizeTold pkt s ∧ t.dec.emsg.text.length < emsgLen := by
  rw [sizeCheck, bind_of_ok (get_run s)] at h
  unfold sizeTold
  split at h
  · next hsize =>
    rw [if_pos (show s.dec.udpSize < pkt.length from hsize.2)]
    exact line_of_wmsg h
  · next hsize =>
    cases h
    rw [if_neg (show ¬ s.dec.udpSize < pkt.length from fun hlt => hsize ⟨rfl, hlt⟩)]
    exact ⟨rfl, hfit⟩

/-- An accepted run ends with its sections decoded and the line about the size. -/
theorem accepted_run {t : DecState} (h : dnsValidate pkt emsgLen = .ok 0 t) :
    ∃ s0 t1, decodeFront (validateEnv pkt emsgLen) (initState (zeroMsg 0)) = .ok () s0 ∧
      decodeSects (validateEnv pkt emsgLen) [.an, .ns, .ar] s0 = .ok () t1 ∧ t1.dec.errs = [] ∧
      t = sizeTold pkt t1 ∧ fullRun pkt = some t ∧ t.dec.emsg.text.length < emsgLen := by
  obtain ⟨s0, t1, t2, h0, h1, h2, hs0, ht1, -⟩ := dnsValidate_zero h
  obtain ⟨_, s, hhead, hquest⟩ : ∃ x s, decodeHead (validateEnv pkt emsgLen)
      (initState (zeroMsg 0)) = .ok x s ∧ orReturn (decodeQd (validateEnv pkt emsgLen)) s =
        .ok () s0 := by
    rw [decodeFront, bind_of_ok (modify_run _ _)] at h0
    obtain ⟨x, s, hs, hq⟩ := (bind_ok _ _ _ _ _).mp h0
    exact ⟨x, s, (bind_of_ok (modify_run _ _) _).trans hs, hq⟩
  have hsects := h1
  have hparts : decodeParts (validateEnv pkt emsgLen) allParts s = .ok () t1 := by
    rw [decodeSects_parts] at h1
    exact (bind_of_ok hquest _).trans h1
  have hs : s.dec.errs = [] := nil_of_grown ((parts_grow _ allParts).ok hparts).1 ht1
  obtain ⟨hlen, hflags, rfl, hfit⟩ := report_of_head hhead hs
  obtain ⟨htell, ht1fit⟩ := tell_of_parts hparts ht1 hfit
  obtain ⟨rfl, ht2fit⟩ := report_of_size ht1fit h2
  have hrun : fullRun pkt = some (sizeTold pkt t1) :=
    fullRun_some.mpr ⟨hlen, hflags, t1, htell, rfl⟩
  have hsame := (validate_of_report hrun ht2fit).symm.trans h
  cases hsame
  exact ⟨s0, t1, h0, hsects, ht1, rfl, hrun, ht2fit⟩

theorem report_of_validate {t : DecState} (h : dnsValidate pkt emsgLen = .ok 0 t) :
    fullRun pkt = some t ∧ t.dec.emsg.text.length < emsgLen := by
  obtain ⟨-, -, -, -, -, -, hrun, hfit⟩ := accepted_run h
  exact ⟨hrun, hfit⟩

/-- A run accepts exactly when the whole report is shorter than the buffer. -/
theorem dnsValidate_zero_iff {t : DecState} : dnsValidate pkt emsgLen = .ok 0 t ↔
    fullRun pkt = some t ∧ t.dec.emsg.text.length < emsgLen :=
  ⟨report_of_validate, fun h => validate_of_report h.1 h.2⟩

theorem accepted_iff : (∃ t, dnsValidate pkt emsgLen = .ok 0 t) ↔
    ∃ text, fullReport pkt = some text ∧ text.length < emsgLen := by
  simp only [dnsValidate_zero_iff, fullReport, Option.map_eq_some_iff]
  constructor
  · rintro ⟨t, hrun, hfit⟩
    exact ⟨_, ⟨t, hrun, rfl⟩, hfit⟩
  · rintro ⟨_, ⟨t, hrun, rfl⟩, hfit⟩
    exact ⟨t, hrun, hfit⟩

end Fits

end DnsPkt.FullReport
