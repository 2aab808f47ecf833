import DnsPkt.CaptureReplay
import DnsPkt.FullReport
import DnsPkt.ParsedOptions

/-!
# Messages that are made to be refused

`gen_enc_badmsg` of `dns_gen.c` makes a message with one defect, and `run_fuzz`
writes it to a capture file. `run_readpcap` on that file refuses it, counts it
and reports the defect that was asked for, whatever the number of the message
and the old contents of the buffer are.
-/

set_option autoImplicit false

namespace DnsPkt.FuzzMessages
open DnsPkt.CheckedRun DnsPkt.CheckedRun.Run DnsPkt.Octets DnsPkt.Protocol DnsPkt.ReportText
open DnsPkt.MessageStore DnsPkt.NameDecoder DnsPkt.RecordDecoder DnsPkt.MessageDecoder
open DnsPkt.RecordRun DnsPkt.AcceptedRun DnsPkt.ReportedRecord DnsPkt.FullReport
open DnsPkt.MessageEncoder DnsPkt.WrittenRecord DnsPkt.QueryTool DnsPkt.ResponseOptions
open DnsPkt.CaptureFile (pcapOpen written)
open DnsPkt.QueryFlags (DnsGen)
open DnsPkt.CaptureRoundTrip DnsPkt.ReadPcap DnsPkt.CaptureReplay
open DnsPkt.ParsedOptions (slice_pcapEndPkt)
open DnsPkt.Inspector
open DnsPkt.GeneratedFrame (ethipudpLen pcapStartPkt pcapEndPkt frame headers ipChecksum ipHdr
  frame_eq length_headers inspProcessPkt_headers)

inductive FuzzType where
  | hdrTrunc
  | hdrOpcode
  | hdrRcode
  | hdrQdcnt
  | qdCmploop
  | qdBadjmp
  deriving DecidableEq, Repr

def zeroHdr : DnsHdr := ⟨0, 0, 0, 0, 0, 0⟩

/-- The end of the header that was written at `wptr`. -/
def genEncBadhdr (id : UInt16) (wptr : ℕ) (hdr : DnsHdr) : Tool ℕ := do
  modify fun gen => { gen with tidSent := id }
  store wptr (hdrBytes { hdr with id := id })
  pure (wptr+dnsHdrLen)

/-- A question of the root that is a pointer to `jmp`. -/
def badQuestion (wptr : ℕ) (jmp : UInt8) : Tool ℕ := do
  store wptr [0xC0]
  store (wptr+1) [jmp]
  store (wptr+2) (encU16 1)
  store (wptr+4) (encU16 1)
  pure (wptr+6)

/-- The switch of `gen_enc_badmsg`. A header that is cut off leaves what was in the buffer. -/
def encBadmsg (type : FuzzType) (id : UInt16) (wptr : ℕ) : Tool ℕ :=
  match type with
  | .hdrTrunc => pure (wptr+10)
  | .hdrOpcode => genEncBadhdr id wptr { zeroHdr with flags := (6 : UInt16) <<< 11 }
  | .hdrRcode => genEncBadhdr id wptr { zeroHdr with flags := dnsFlagsQr ||| 11 }
  | .hdrQdcnt => genEncBadhdr id wptr { zeroHdr with qdCount := 0xffff }
  | .qdCmploop => do
    let wptr ← genEncBadhdr id wptr { zeroHdr with qdCount := 1 }
    badQuestion wptr 0x0C
  | .qdBadjmp => do
    let wptr ← genEncBadhdr id wptr { zeroHdr with qdCount := 1 }
    badQuestion wptr 0x00

def genEncBadmsg (type : FuzzType) (id : UInt16) : Tool Unit := do
  let gen ← get
  let start := gen.pktLen
  let wptr ← encBadmsg type id start
  modify (onPacket fun gen => { gen with pktLen := gen.pktLen+(wptr-start) })

/-- `run_fuzz` up to the file that the packet is written to. -/
def runFuzz (type : FuzzType) (id : UInt16) : Tool Unit := do
  modify (onPacket pcapStartPkt)
  genEncBadmsg type id
  modify (onPacket pcapEndPkt)

def idText (pktLen : ℕ) (id : UInt16) : Bytes :=
  if dnsHdrLen ≤ pktLen then ascii "ID 0x" ++ hex4 id.toNat ++ ascii " " else []

def errorText (pktLen : ℕ) (id : UInt16) (errs : List DnsErr) : Bytes :=
  ascii "[ERROR] " ++ idText pktLen id ++
    (errs.reverse.flatMap fun err => ascii "/ " ++ dnsErrTostr err) ++ ascii "\n"

section Report

variable {s : DecState}

structure Reported (s : DecState) (text : Bytes) (t : DecState) : Prop where
  errs : t.dec.errs = s.dec.errs
  hdr : t.dec.hdr = s.dec.hdr
  text : t.dec.emsg.text = s.dec.emsg.text ++ text
  tail : s.dec.emsg.tail = [] → t.dec.emsg.tail = []

theorem reported_told (s : DecState) (text : Bytes) : Reported s text (told s text) :=
  ⟨rfl, rfl, rfl, fun _ => rfl⟩

theorem Reported.trans {t u : DecState} {a b : Bytes} (h : Reported s a t) (g : Reported t b u) :
    Reported s (a ++ b) u where
  errs := g.errs.trans h.errs
  hdr := g.hdr.trans h.hdr
  text := by rw [g.text, h.text, List.append_assoc]
  tail := fun htail => g.tail (h.tail htail)

theorem Reported.length {t : DecState} {a : Bytes} (h : Reported s a t) :
    t.dec.emsg.text.length = s.dec.emsg.text.length+a.length := by
  rw [h.text, List.length_append]

theorem reported_put (s : DecState) (b : Bytes) : Reported s [] (put s 0 b) where
  errs := put_errs s 0 b
  hdr := by
    unfold put
    split <;> rfl
  text := by rw [put_emsg, List.append_nil]
  tail htail := by rwa [put_emsg]

theorem errChain_reported (env : DecEnv) (errs : List DnsErr) (hfit : s.dec.emsg.text.length+
      (errs.flatMap fun err => ascii "/ " ++ dnsErrTostr err).length < env.emsgLen) :
    ∃ t, errChain env errs s = .ok () t ∧
      Reported s (errs.flatMap fun err => ascii "/ " ++ dnsErrTostr err) t := by
  induction errs generalizing s with
  | nil => exact ⟨s, rfl, rfl, rfl, (List.append_nil _).symm, id⟩
  | cons err rest ih =>
    rw [List.flatMap_cons, List.length_append] at hfit
    have hput := reported_put s (cut 0 (dnsErrTostr err))
    have hline := hput.trans (reported_told _ (ascii "/ " ++ dnsErrTostr err))
    have hlen := hput.length
    rw [List.nil_append] at hline
    rw [List.length_nil, Nat.add_zero] at hlen
    obtain ⟨t, hrun, ht⟩ := ih (s := told (put s 0 (cut 0 (dnsErrTostr err)))
      (ascii "/ " ++ dnsErrTostr err)) (by rw [hline.length]; omega)
    refine ⟨t, ?_, hline.trans ht⟩
    rw [errChain, bind_of_ok (snprintf_run (Nat.zero_le _) _ s),
      bind_of_ok (dnsWmsg_fits (show _+_+1 ≤ env.emsgLen by rw [hlen]; omega))]
    exact hrun

/-- The number of the message, if the packet has a header. -/
theorem idText_reported (env : DecEnv) (id : UInt16) (hfit : s.dec.emsg.text.length+
      (idText env.pkt.length id).length < env.emsgLen) :
    ∃ t, (when (dnsHdrLen ≤ env.pkt.length) (dnsWmsg env (ascii "ID 0x" ++ hex4 id.toNat ++
      ascii " ") >>= fun _ => pure ())) s = .ok () t ∧ Reported s (idText env.pkt.length id) t := by
  rw [idText] at hfit ⊢
  by_cases hlen : dnsHdrLen ≤ env.pkt.length
  · rw [if_pos hlen] at hfit
    rw [if_pos hlen, when_pos hlen, bind_of_ok (dnsWmsg_fits hfit)]
    exact ⟨_, rfl, reported_told s _⟩
  · rw [if_neg hlen, when_neg hlen]
    exact ⟨s, rfl, rfl, rfl, (List.append_nil _).symm, fun h => h⟩

theorem genmsg_reported (env : DecEnv) (hne : s.dec.errs ≠ []) (hfit : s.dec.emsg.text.length+
      (errorText env.pkt.length s.dec.hdr.id s.dec.errs).length < env.emsgLen) :
    ∃ t, dnsDecGenmsg env s = .ok decErr t ∧
      Reported s (errorText env.pkt.length s.dec.hdr.id s.dec.errs) t := by
  simp only [errorText, List.length_append] at hfit
  have h1 := reported_told s (ascii "[ERROR] ")
  obtain ⟨t2, hrun2, h2⟩ := idText_reported env (s := told s (ascii "[ERROR] "))
    s.dec.hdr.id (by rw [h1.length]; omega)
  have h12 := h1.trans h2
  obtain ⟨t3, hrun3, h3⟩ := errChain_reported env s.dec.errs.reverse (s := t2)
    (by rw [h12.length, List.length_append]; omega)
  have h123 := h12.trans h3
  have h4 := reported_told t3 (ascii "\n")
  refine ⟨_, ?_, h123.trans h4⟩
  rw [dnsDecGenmsg, bind_of_ok (get_run s), if_neg hne,
    bind_of_ok (dnsWmsg_fits (show _+_+1 ≤ env.emsgLen by omega))]
  refine (bind_of_ok hrun2 _).trans ((bind_of_ok hrun3 _).trans ?_)
  rw [bind_of_ok (dnsWmsg_fits (show _+_+1 ≤ env.emsgLen by
    rw [h123.length, List.length_append, List.length_append]; omega))]
  rfl

end Report

section Decode

variable {pkt : Bytes} {emsgLen : ℕ}

theorem validate_refused {rc : ℤ} {t : DecState}
    (hdec : decodeMsg (validateEnv pkt emsgLen) (initState (zeroMsg 0)) = .ok rc t)
    (hrc : rc = 0 ∨ rc = decErr) (hne : t.dec.errs ≠ []) (hfit : t.dec.emsg.text.length+
      (errorText pkt.length t.dec.hdr.id t.dec.errs).length < emsgLen) :
    ∃ u, dnsValidate pkt emsgLen = .ok decErr u ∧
      Reported t (errorText pkt.length t.dec.hdr.id t.dec.errs) u := by
  obtain ⟨u, hgen, hu⟩ := genmsg_reported (validateEnv pkt emsgLen) hne hfit
  refine ⟨u, ?_, hu⟩
  rw [dnsValidate, validateRun, bind_of_ok hdec, bind_of_ok hgen]
  obtain rfl | rfl := hrc <;> rfl

structure Headed (pkt : Bytes) (errs : List DnsErr) (t : DecState) : Prop where
  offset : t.dec.offset = dnsHdrLen
  errs : t.dec.errs = errs
  udpSize : t.dec.udpSize = dnsMaxUdp
  hdr : t.dec.hdr = hdrOf pkt
  emsg : t.dec.emsg = ⟨hdrLine (hdrOf pkt), []⟩
  msg : t.msg.hdr = hdrOf pkt

def flagErrs (flags : UInt16) : List DnsErr :=
  if flagsRefused flags then
    [⟨.pdu, .hdr, if flagSet flags 15 then DnsEc.ercode.code else DnsEc.eopcode.code⟩]
  else []

theorem checkFlags_errs (flags : UInt16) {s : DecState} (hs : s.dec.errs = []) :
    checkFlags flags s = .ok () { s with dec.errs := flagErrs flags } := by
  have hnil : s = { s with dec.errs := [] } := by
    rw [← hs]
  have hpush (ec : ℤ) :
      pushErr .pdu .hdr ec s = .ok () { s with dec.errs := [⟨.pdu, .hdr, ec⟩] } := by
    rw [pushErr, modify_run, dnsDecErr, hs]
    rfl
  unfold checkFlags flagErrs flagsRefused
  by_cases hqr : flagSet flags 15 = true
  · by_cases hbad : badRcode flags = true
    · simp only [hqr, hbad, if_true, when_pos, hpush]
    · simp only [hqr, hbad, if_true, if_false, Bool.false_eq_true]
      exact congrArg _ hnil
  · by_cases hbad : badOpcode flags = true
    · simp only [hqr, hbad, if_true, if_false, when_pos, hpush, Bool.false_eq_true]
    · simp only [hqr, hbad, if_false, Bool.false_eq_true]
      exact congrArg _ hnil

theorem decodeHdr_headed (hlen : dnsHdrLen ≤ pkt.length)
    (hfit : (hdrLine (hdrOf pkt)).length < emsgLen) :
    ∃ t, decodeHdr (validateEnv pkt emsgLen) (initState (dnsMsgReset (zeroMsg 0))) = .ok 0 t ∧
      Headed pkt (flagErrs (hdrOf pkt).flags) t := by
  have hbody := @hdrBody_run (validateEnv pkt emsgLen) rfl hlen
    (initState (dnsMsgReset (zeroMsg 0)))
  rw [bind_of_ok (checkFlags_errs _ rfl), dnsWmsg_fits (show _+_+1 ≤ emsgLen from
    (Nat.zero_add _).symm ▸ hfit)] at hbody
  exact ⟨_, (call_ok _ _ _ _).mpr (.inl hbody), rfl, rfl, rfl, rfl, rfl, rfl⟩

theorem front_headed {t : DecState} {q : ℤ} {u : DecState}
    (hhdr : decodeHdr (validateEnv pkt emsgLen) (initState (dnsMsgReset (zeroMsg 0))) = .ok 0 t)
    (hqd : decodeQd (validateEnv pkt emsgLen) t = .ok q u) :
    decodeFront (validateEnv pkt emsgLen) (initState (zeroMsg 0)) =
      if q = 0 then .ok () u else .exit q u := by
  have hret : orReturn (decodeHdr (validateEnv pkt emsgLen)) (initState (dnsMsgReset (zeroMsg 0))) =
      .ok () t := orReturn_ok.mpr hhdr
  rw [decodeFront, bind_of_ok (modify_run _ _)]
  refine (bind_of_ok hret _).trans ?_
  rw [orReturn, bind_of_ok hqd]
  by_cases hq : q = 0
  · rw [if_pos hq, when_neg (not_not.mpr hq)]
    rfl
  · rw [if_neg hq, when_pos hq]
    rfl

/-- A message without records is decoded with its questions. -/
theorem decodeMsg_questions {t u : DecState} {q : ℤ}
    (hhdr : decodeHdr (validateEnv pkt emsgLen) (initState (dnsMsgReset (zeroMsg 0))) = .ok 0 t)
    (hqd : decodeQd (validateEnv pkt emsgLen) t = .ok q u)
    (hcount : ∀ sc, sectCount u.msg.hdr sc = 0) (hsize : pkt.length ≤ u.dec.udpSize) :
    decodeMsg (validateEnv pkt emsgLen) (initState (zeroMsg 0)) = .ok q u := by
  have hfront := front_headed hhdr hqd
  by_cases hq : q = 0
  · rw [if_pos hq] at hfront
    have hsect (sc : Sect) : orReturn (decodeSect (validateEnv pkt emsgLen) sc) u = .ok () u := by
      apply orReturn_ok.mpr
      rw [decodeSect, bind_of_ok (get_run u), hcount sc]
      rfl
    have hsects : decodeSects (validateEnv pkt emsgLen) [.an, .ns, .ar] u = .ok () u := by
      rw [decodeSects, bind_of_ok (hsect .an), decodeSects, bind_of_ok (hsect .ns), decodeSects,
        bind_of_ok (hsect .ar)]
      rfl
    have hcheck : sizeCheck (validateEnv pkt emsgLen) u = .ok 0 u := by
      rw [sizeCheck, bind_of_ok (get_run u), if_neg fun h => absurd h.2 (Nat.not_lt.mpr hsize)]
      rfl
    refine (call_ok _ _ _ _).mpr (.inl ?_)
    rw [bind_of_ok hfront, bind_of_ok hsects, hcheck, hq]
  · rw [if_neg hq] at hfront
    exact (call_ok _ _ _ _).mpr (.inr (bind_of_exit hfront _))

/-- The decode of a question whose name has an error and nothing in front of it. -/
theorem question_refused (emsgLen : ℕ) {s : DecState} {ec : DnsEc} {off : ℕ}
    (h : decodeName pkt s.dec.offset dnsMsgSize = .ok ⟨.error ec, off, []⟩) :
    dnsQdDecode (validateEnv pkt emsgLen) s =
      .ok (dnsDecErr .qd .name (-ec.code) (moveTo s off)).1
        (dnsDecErr .qd .name (-ec.code) (moveTo s off)).2 := by
  have hname : qdName (validateEnv pkt emsgLen) s =
      .exit (dnsDecErr .qd .name (-ec.code) (moveTo s off)).1
        (dnsDecErr .qd .name (-ec.code) (moveTo s off)).2 := by
    obtain ⟨r, hr, -, hrun⟩ := decodeNameAt_run (validateEnv pkt emsgLen) (Nat.zero_le _) s
    obtain rfl : r = _ := Except.ok.inj (hr.symm.trans h)
    rw [qdName, bind_of_ok hrun, put_nil]
    rfl
  refine (call_ok _ _ _ _).mpr (.inr ?_)
  have hslot : qdSlot (validateEnv pkt emsgLen) s = .ok () s := rfl
  rw [qdBody, bind_of_ok hslot, bind_of_exit hname]

/-- Rows that all have the same error, which does not move the offset: each
is recorded as long as there is room, and then the loop is left. -/
theorem rows_refused {entry : Dec ℤ} {err : DnsErr} {s : DecState} {i k n : ℕ}
    (hentry : ∀ errs, entry { s with dec.errs := errs } =
      .ok (dnsDecErr err.group err.field err.ec { s with dec.errs := errs }).1
        (dnsDecErr err.group err.field err.ec { s with dec.errs := errs }).2)
    (hk : k ≤ dnsMaxEmsg) (hn : dnsMaxEmsg < n+k) (loc : DnsLocation) :
    loop (rowStep entry loc) i n { s with dec.errs := List.replicate k err } =
      .exit decErr { s with dec.errs := List.replicate dnsMaxEmsg err } := by
  induction n generalizing i k with
  | zero => omega
  | succ n ih =>
    have hrun := hentry (List.replicate k err)
    by_cases hfull : dnsMaxEmsg ≤ k
    · obtain rfl : k = dnsMaxEmsg := Nat.le_antisymm hk hfull
      have hrow : rowStep entry loc i { s with dec.errs := List.replicate dnsMaxEmsg err } =
          .exit decErr { s with dec.errs := List.replicate dnsMaxEmsg err } := by
        rw [rowStep, bind_of_ok hrun]
        rfl
      exact bind_of_exit hrow _
    · have hroom : ¬ dnsMaxEmsg ≤ (List.replicate k err).length := by rwa [List.length_replicate]
      have hpush :
          dnsDecErr err.group err.field err.ec { s with dec.errs := List.replicate k err } =
            (0, { s with dec.errs := List.replicate (k+1) err }) := by
        rw [dnsDecErr, if_neg hroom, List.replicate_succ']
      rw [hpush] at hrun
      have hrow : rowStep entry loc i { s with dec.errs := List.replicate k err } =
          .ok () { s with dec.errs := List.replicate (k+1) err } := by
        rw [rowStep, bind_of_ok hrun]
        rfl
      rw [loop_succ_of_ok hrow]
      exact ih (by omega) (by omega)

end Decode

def fuzzHdr : FuzzType → DnsHdr
  | .hdrTrunc => zeroHdr
  | .hdrOpcode => { zeroHdr with flags := (6 : UInt16) <<< 11 }
  | .hdrRcode => { zeroHdr with flags := dnsFlagsQr ||| 11 }
  | .hdrQdcnt => { zeroHdr with qdCount := 0xffff }
  | .qdCmploop => { zeroHdr with qdCount := 1 }
  | .qdBadjmp => { zeroHdr with qdCount := 1 }

def fuzzQuestion : FuzzType → Bytes
  | .qdCmploop => [0xC0, 0x0C, 0, 1, 0, 1]
  | .qdBadjmp => [0xC0, 0x00, 0, 1, 0, 1]
  | _ => []

/-- The bytes of a message with a defect. A header that is cut off has ten bytes of any kind. -/
def IsFuzz (type : FuzzType) (id : UInt16) (d : Bytes) : Prop :=
  if type = .hdrTrunc then d.length = 10
  else d = hdrBytes { fuzzHdr type with id := id } ++ fuzzQuestion type

def fuzzErrs : FuzzType → List DnsErr
  | .hdrTrunc => [⟨.pdu, .hdr, DnsEc.ehdrlen.code⟩]
  | .hdrOpcode => [⟨.pdu, .hdr, DnsEc.eopcode.code⟩]
  | .hdrRcode => [⟨.pdu, .hdr, DnsEc.ercode.code⟩]
  | .hdrQdcnt => List.replicate dnsMaxEmsg ⟨.qd, .name, -DnsEc.enonull.code⟩
  | .qdCmploop => [⟨.qd, .name, -DnsEc.emaxjmp.code⟩]
  | .qdBadjmp => [⟨.qd, .name, -DnsEc.ebadjmp.code⟩]

def withId (id : UInt16) (front middle back : Bytes) : Bytes :=
  front ++ (hex4 id.toNat ++ (middle ++ (hex4 id.toNat ++ back)))

def fuzzReport (id : UInt16) : FuzzType → Bytes
  | .hdrTrunc => ascii "[ERROR] / PDU HDR header len\n"
  | .hdrOpcode => withId id (ascii "[QUERY] ID 0x")
      (ascii " QR:0 OPCODE:6 bad-opcode\n[ERROR] ID 0x") (ascii " / PDU HDR Invalid opcode\n")
  | .hdrRcode => withId id (ascii "[RESPONSE] ID 0x")
      (ascii " QR:1 OPCODE:QUERY RCODE:11 bad-rcode\n[ERROR] ID 0x")
      (ascii " / PDU HDR Invalid rcode\n")
  | .hdrQdcnt => withId id (ascii "[QUERY] ID 0x") (ascii " QR:0 OPCODE:QUERY \n[ERROR] ID 0x")
      (ascii " " ++ (List.replicate dnsMaxEmsg
        (ascii "/ Question Name Name missing null char")).flatten ++ ascii "\n")
  | .qdCmploop => withId id (ascii "[QUERY] ID 0x") (ascii " QR:0 OPCODE:QUERY \n[ERROR] ID 0x")
      (ascii " / Question Name Invalid compression pointer (loop detected)\n")
  | .qdBadjmp => withId id (ascii "[QUERY] ID 0x") (ascii " QR:0 OPCODE:QUERY \n[ERROR] ID 0x")
      (ascii " / Question Name Invalid compression pointer (outside range)\n")

def lineFront (flags : UInt16) : Bytes :=
  ascii "[" ++ (if flagSet flags 15 then ascii "RESPONSE" else ascii "QUERY") ++ ascii "] ID 0x"

def lineBack (flags : UInt16) : Bytes :=
  ascii " QR:" ++ decimal (flagSet flags 15).toNat ++ ascii " OPCODE:" ++
    opcodeTostr (opcode flags) ++ ascii " " ++ cstr (flagsText flags) ++ ascii "\n"

def chainText (errs : List DnsErr) : Bytes :=
  errs.reverse.flatMap (fun err => ascii "/ " ++ dnsErrTostr err) ++ ascii "\n"

theorem report_withId (hdr : DnsHdr) (errs : List DnsErr) :
    hdrLine hdr ++ errorText dnsHdrLen hdr.id errs = withId hdr.id (lineFront hdr.flags)
      (lineBack hdr.flags ++ ascii "[ERROR] " ++ ascii "ID 0x") (ascii " " ++ chainText errs) := by
  have hid : idText dnsHdrLen hdr.id = ascii "ID 0x" ++ hex4 hdr.id.toNat ++ ascii " " := rfl
  rw [errorText, hid]
  simp only [hdrLine, withId, lineFront, lineBack, chainText, List.append_assoc]

theorem withId_congr {id : UInt16} {a b c a' b' c' : Bytes} (ha : a = a') (hb : b = b')
    (hc : c = c') : withId id a b c = withId id a' b' c' := by
  rw [ha, hb, hc]

theorem fuzzReport_eq (type : FuzzType) (id : UInt16) (h : type ≠ .hdrTrunc) :
    fuzzReport id type = hdrLine { fuzzHdr type with id := id } ++
      errorText dnsHdrLen id (fuzzErrs type) := by
  rw [report_withId { fuzzHdr type with id := id }]
  change _ = withId id (lineFront (fuzzHdr type).flags)
    (lineBack (fuzzHdr type).flags ++ ascii "[ERROR] " ++ ascii "ID 0x")
    (ascii " " ++ chainText (fuzzErrs type))
  cases type with
  | hdrTrunc => exact absurd rfl h
  | hdrOpcode => exact withId_congr (by decide +kernel) (by decide +kernel) (by decide +kernel)
  | hdrRcode => exact withId_congr (by decide +kernel) (by decide +kernel) (by decide +kernel)
  | hdrQdcnt => exact withId_congr (by decide +kernel) (by decide +kernel) (by decide +kernel)
  | qdCmploop => exact withId_congr (by decide +kernel) (by decide +kernel) (by decide +kernel)
  | qdBadjmp => exact withId_congr (by decide +kernel) (by decide +kernel) (by decide +kernel)

theorem hexDigit_ne_zero {n : ℕ} (h : n < 16) : hexDigit n ≠ 0 := by
  interval_cases n <;> decide

theorem hex4_text (n : ℕ) : (hex4 n).length = 4 ∧ (0 : UInt8) ∉ hex4 n := by
  refine ⟨rfl, fun hmem => ?_⟩
  have hlt (m : ℕ) : m % 16 < 16 := Nat.mod_lt _ (by decide)
  simp only [hex4, List.mem_cons, List.not_mem_nil, or_false] at hmem
  obtain h | h | h | h := hmem <;> exact hexDigit_ne_zero (hlt _) h.symm

/-- A text that fits the buffer of the report and ends only there. -/
def Plain (b : Bytes) : Prop := b.length < 512 ∧ (0 : UInt8) ∉ b

theorem plain_withId {id : UInt16} {front middle back : Bytes}
    (hlen : front.length+middle.length+back.length < 504) (hfront : (0 : UInt8) ∉ front)
    (hmiddle : (0 : UInt8) ∉ middle) (hback : (0 : UInt8) ∉ back) :
    Plain (withId id front middle back) := by
  obtain ⟨hlen4, hzero⟩ := hex4_text id.toNat
  constructor
  · simp only [withId, List.length_append, hlen4]
    omega
  · simp only [withId, List.mem_append, not_or]
    exact ⟨hfront, hzero, hmiddle, hzero, hback⟩

theorem fuzzReport_plain (type : FuzzType) (id : UInt16) : Plain (fuzzReport id type) := by
  cases type with
  | hdrTrunc =>
    have h : Plain (ascii "[ERROR] / PDU HDR header len\n") :=
      ⟨by decide +kernel, by decide +kernel⟩
    exact h
  | hdrOpcode => exact plain_withId (by decide +kernel) (by decide) (by decide) (by decide)
  | hdrRcode => exact plain_withId (by decide +kernel) (by decide) (by decide) (by decide)
  | hdrQdcnt =>
    exact plain_withId (by decide +kernel) (by decide) (by decide) (by decide +kernel)
  | qdCmploop => exact plain_withId (by decide +kernel) (by decide) (by decide) (by decide)
  | qdBadjmp => exact plain_withId (by decide +kernel) (by decide) (by decide) (by decide)

section Validate

variable {d : Bytes} {id : UInt16} {type : FuzzType}

/-- The decode ends with the errors, and the report on the header stands there. -/
structure Ends (type : FuzzType) (id : UInt16) (d : Bytes) (t : DecState) : Prop where
  errs : t.dec.errs = fuzzErrs type
  report : t.dec.emsg.text ++ errorText d.length t.dec.hdr.id (fuzzErrs type) = fuzzReport id type
  tail : t.dec.emsg.tail = []

theorem fuzzErrs_ne_nil (type : FuzzType) : fuzzErrs type ≠ [] := by
  cases type <;> simp [fuzzErrs]

theorem decodeQd_none (env : DecEnv) {s : DecState} (h : s.msg.hdr.qdCount = 0) :
    decodeQd env s = .ok 0 s := by
  rw [decodeQd, bind_of_ok (get_run s), h]
  rfl

theorem trunc_decoded (h : IsFuzz .hdrTrunc id d) : ∃ t,
    decodeMsg (validateEnv d dnsEmsgMaxlen) (initState (zeroMsg 0)) = .ok 0 t ∧
      Ends .hdrTrunc id d t := by
  have hlen : d.length = 10 := h
  have hshort : (validateEnv d dnsEmsgMaxlen).pkt.length < dnsHdrLen := by
    change d.length < 12
    omega
  have hbody : hdrBody (validateEnv d dnsEmsgMaxlen) (initState (dnsMsgReset (zeroMsg 0))) =
      .exit 0 (dnsDecErr .pdu .hdr DnsEc.ehdrlen.code (initState (dnsMsgReset (zeroMsg 0)))).2 := by
    rw [hdrBody, when_pos hshort]
    rfl
  have hhdr : decodeHdr (validateEnv d dnsEmsgMaxlen) (initState (dnsMsgReset (zeroMsg 0))) =
      .ok 0 _ := (call_ok _ _ _ _).mpr (.inr hbody)
  refine ⟨_, decodeMsg_questions hhdr (decodeQd_none _ rfl) (fun sc => by cases sc <;> rfl) ?_,
    rfl, ?_, rfl⟩
  · rw [hlen]
    decide
  · rw [hlen]
    rfl

/-- A message with a header and a question at most is read up to the question. -/
theorem fuzz_headed (hne : type ≠ .hdrTrunc) (h : IsFuzz type id d) : ∃ t,
    decodeHdr (validateEnv d dnsEmsgMaxlen) (initState (dnsMsgReset (zeroMsg 0))) = .ok 0 t ∧
      Headed d (flagErrs (fuzzHdr type).flags) t ∧ hdrOf d = { fuzzHdr type with id := id } ∧
      dnsHdrLen ≤ d.length ∧ d.length ≤ 18 := by
  have hd : d = hdrBytes { fuzzHdr type with id := id } ++ fuzzQuestion type := by
    rwa [IsFuzz, if_neg hne] at h
  have hhdr : hdrOf d = { fuzzHdr type with id := id } := by
    rw [hd]
    exact hdrOf_written (List.prefix_append _ _)
  have hlen : d.length = 12+(fuzzQuestion type).length := by
    rw [hd, List.length_append]
    rfl
  have hquestion : (fuzzQuestion type).length ≤ 6 := by cases type <;> decide
  have hfit : (hdrLine (hdrOf d)).length < dnsEmsgMaxlen := by
    have hplain := (fuzzReport_plain type id).1
    rw [fuzzReport_eq type id hne, List.length_append] at hplain
    rw [hhdr]
    exact Nat.lt_of_le_of_lt (Nat.le_add_right _ _) (hplain.trans (by decide))
  obtain ⟨t, hrun, ht⟩ := decodeHdr_headed (show 12 ≤ d.length by omega) hfit
  rw [hhdr] at ht
  exact ⟨t, hrun, ht, hhdr, show 12 ≤ d.length by omega, by omega⟩

theorem ends_of_headed (hne : type ≠ .hdrTrunc) {errs : List DnsErr} {t u : DecState}
    (ht : Headed d errs t) (hhdr : hdrOf d = { fuzzHdr type with id := id })
    (hlen : dnsHdrLen ≤ d.length) (hsame : u.dec.hdr = t.dec.hdr ∧ u.dec.emsg = t.dec.emsg)
    (herrs : u.dec.errs = fuzzErrs type) : Ends type id d u := by
  have htext : idText d.length id = idText dnsHdrLen id := by
    rw [idText, idText, if_pos hlen, if_pos (Nat.le_refl _)]
  refine ⟨herrs, ?_, by rw [hsame.2, ht.emsg]⟩
  rw [hsame.1, hsame.2, ht.hdr, ht.emsg, hhdr, fuzzReport_eq type id hne, errorText, errorText,
    htext]

def refused (s : DecState) (ec : DnsEc) (off k : ℕ) : DecState :=
  { moveTo s off with dec.errs := List.replicate k ⟨.qd, .name, -ec.code⟩ }

theorem one_question {s : DecState} {ec : DnsEc} {off : ℕ} (hcount : s.msg.hdr.qdCount = 1)
    (hnone : s.dec.errs = [])
    (h : decodeName d s.dec.offset dnsMsgSize = .ok ⟨.error ec, off, []⟩) :
    decodeQd (validateEnv d dnsEmsgMaxlen) s = .ok 0 (refused s ec off 1) := by
  have hpush : dnsDecErr .qd .name (-ec.code) (moveTo s off) = (0, refused s ec off 1) := by
    have hempty : (moveTo s off).dec.errs = [] := hnone
    rw [dnsDecErr, hempty]
    rfl
  have hrow := question_refused dnsEmsgMaxlen h
  rw [hpush] at hrow
  have hstep : rowStep (dnsQdDecode (validateEnv d dnsEmsgMaxlen)) .qd 0 s =
      .ok () (refused s ec off 1) := by
    rw [rowStep, bind_of_ok hrow]
    rfl
  rw [decodeQd, bind_of_ok (get_run s), hcount]
  refine (call_ok _ _ _ _).mpr (.inl ?_)
  exact (bind_of_ok (loop_succ_of_ok hstep 0) _).trans rfl

/-- More questions than errors that can be recorded, with nothing in front of the name. -/
theorem many_questions {s : DecState} {ec : DnsEc} (hcount : dnsMaxEmsg < s.msg.hdr.qdCount.toNat)
    (hnone : s.dec.errs = [])
    (h : decodeName d s.dec.offset dnsMsgSize = .ok ⟨.error ec, s.dec.offset, []⟩) :
    decodeQd (validateEnv d dnsEmsgMaxlen) s =
      .ok decErr (refused s ec s.dec.offset dnsMaxEmsg) := by
  let err : DnsErr := ⟨.qd, .name, -ec.code⟩
  have hentry (errs : List DnsErr) :
      dnsQdDecode (validateEnv d dnsEmsgMaxlen) { s with dec.errs := errs } =
        .ok (dnsDecErr err.group err.field err.ec { s with dec.errs := errs }).1
          (dnsDecErr err.group err.field err.ec { s with dec.errs := errs }).2 :=
    question_refused _ (s := { s with dec.errs := errs }) h
  have hempty : s = { s with dec.errs := List.replicate 0 err } := by
    rw [List.replicate_zero, ← hnone]
  have hloop := rows_refused (i := 0) (k := 0) hentry (Nat.zero_le _) hcount .qd
  rw [← hempty] at hloop
  rw [decodeQd, bind_of_ok (get_run s)]
  exact (call_ok _ _ _ _).mpr (.inr (bind_of_exit hloop _))

theorem fuzz_decoded (h : IsFuzz type id d) : ∃ q t,
    decodeMsg (validateEnv d dnsEmsgMaxlen) (initState (zeroMsg 0)) = .ok q t ∧
      (q = 0 ∨ q = decErr) ∧ Ends type id d t := by
  by_cases hne : type = .hdrTrunc
  · subst hne
    obtain ⟨t, hdec, hends⟩ := trunc_decoded h
    exact ⟨0, t, hdec, .inl rfl, hends⟩
  obtain ⟨t, hrun, ht, hhdr, hlen, hsmall⟩ := fuzz_headed hne h
  have hsize : d.length ≤ t.dec.udpSize := by
    rw [ht.udpSize]
    exact hsmall.trans (by decide)
  have hmsg := ht.msg.trans hhdr
  have hcount (sc : Sect) : sectCount t.msg.hdr sc = 0 := by
    rw [hmsg]
    cases type <;> cases sc <;> rfl
  have hd : d = hdrBytes { fuzzHdr type with id := id } ++ fuzzQuestion type := by
    rwa [IsFuzz, if_neg hne] at h
  have hends {u : DecState} (hsame : u.dec.hdr = t.dec.hdr ∧ u.dec.emsg = t.dec.emsg)
      (herrs : u.dec.errs = fuzzErrs type) : Ends type id d u :=
    ends_of_headed hne ht hhdr hlen hsame herrs
  cases type with
  | hdrTrunc => exact absurd rfl hne
  | hdrOpcode =>
    have hqd := decodeQd_none (validateEnv d dnsEmsgMaxlen) (s := t) (by rw [hmsg]; rfl)
    exact ⟨0, t, decodeMsg_questions hrun hqd hcount hsize, .inl rfl,
      hends ⟨rfl, rfl⟩ (ht.errs.trans (by decide))⟩
  | hdrRcode =>
    have hqd := decodeQd_none (validateEnv d dnsEmsgMaxlen) (s := t) (by rw [hmsg]; rfl)
    exact ⟨0, t, decodeMsg_questions hrun hqd hcount hsize, .inl rfl,
      hends ⟨rfl, rfl⟩ (ht.errs.trans (by decide))⟩
  | hdrQdcnt =>
    have hname : decodeName d t.dec.offset dnsMsgSize =
        .ok ⟨.error .enonull, t.dec.offset, []⟩ := by
      rw [ht.offset, hd]
      rfl
    have hmany : dnsMaxEmsg < t.msg.hdr.qdCount.toNat := by
      have h16 : dnsMaxEmsg < (0xffff : UInt16).toNat := by decide
      rwa [hmsg]
    have hqd := many_questions hmany (ht.errs.trans (by decide)) hname
    exact ⟨decErr, _, decodeMsg_questions hrun hqd hcount hsize, .inr rfl, hends ⟨rfl, rfl⟩ rfl⟩
  | qdCmploop =>
    have hname : decodeName d t.dec.offset dnsMsgSize = .ok ⟨.error .emaxjmp, 14, []⟩ := by
      rw [ht.offset, hd]
      rfl
    have hqd := one_question (by rw [hmsg]; rfl) (ht.errs.trans (by decide)) hname
    exact ⟨0, _, decodeMsg_questions hrun hqd hcount hsize, .inl rfl, hends ⟨rfl, rfl⟩ rfl⟩
  | qdBadjmp =>
    have hname : decodeName d t.dec.offset dnsMsgSize = .ok ⟨.error .ebadjmp, 14, []⟩ := by
      rw [ht.offset, hd]
      rfl
    have hqd := one_question (by rw [hmsg]; rfl) (ht.errs.trans (by decide)) hname
    exact ⟨0, _, decodeMsg_questions hrun hqd hcount hsize, .inl rfl, hends ⟨rfl, rfl⟩ rfl⟩

/-- A message with a defect is refused, and its report tells the defect. -/
theorem fuzz_validated (h : IsFuzz type id d) : ∃ u, dnsValidate d dnsEmsgMaxlen = .ok decErr u ∧
    u.dec.errs = fuzzErrs type ∧ u.dec.emsg.text = fuzzReport id type ∧ u.dec.emsg.tail = [] := by
  obtain ⟨q, t, hdec, hq, hends⟩ := fuzz_decoded h
  have hfit : t.dec.emsg.text.length+(errorText d.length t.dec.hdr.id t.dec.errs).length <
      dnsEmsgMaxlen := by
    rw [← List.length_append, hends.errs, hends.report]
    exact (fuzzReport_plain type id).1.trans (by decide)
  obtain ⟨u, hrun, hu⟩ := validate_refused hdec hq (by rw [hends.errs]; exact fuzzErrs_ne_nil type)
    hfit
  refine ⟨u, hrun, hu.errs.trans hends.errs, ?_, hu.tail hends.tail⟩
  rw [hu.text, hends.errs, hends.report]

end Validate

section Generate

variable {s : DnsGen} {id : UInt16} {i : ℕ}

structure Stored (s : DnsGen) (i : ℕ) (b : Bytes) (t : DnsGen) : Prop where
  buf : t.pktBuf = patch s.pktBuf i b
  len : t.pktLen = s.pktLen

theorem store_run {b : Bytes} (h : i+b.length ≤ dnsMaxPdusize) (s : DnsGen) :
    ∃ t, store i b s = .ok () t ∧ Stored s i b t := by
  refine ⟨_, dif_pos h, rfl, rfl⟩

theorem Stored.trans {t u : DnsGen} {a b : Bytes} {j : ℕ} (h : Stored s i a t)
    (g : Stored t j b u) (hj : i+a.length = j) (hfit : j ≤ dnsMaxPdusize) :
    Stored s i (a ++ b) u where
  buf := by rw [g.buf, h.buf, ← hj, patch_patch _ _ _ _ (by rw [hj, s.size]; exact hfit)]
  len := g.len.trans h.len

theorem genEncBadhdr_run (id : UInt16) (hdr : DnsHdr) (h : i+dnsHdrLen ≤ dnsMaxPdusize)
    (s : DnsGen) : ∃ t, genEncBadhdr id i hdr s = .ok (i+dnsHdrLen) t ∧
      Stored s i (hdrBytes { hdr with id := id }) t := by
  obtain ⟨t, hrun, hbuf, hlen⟩ := store_run (b := hdrBytes { hdr with id := id }) h
    { s with tidSent := id }
  refine ⟨t, ?_, hbuf, hlen⟩
  rw [genEncBadhdr, bind_of_ok (modify_run _ _), bind_of_ok hrun]
  rfl

theorem badQuestion_run (jmp : UInt8) (h : i+6 ≤ dnsMaxPdusize) (s : DnsGen) :
    ∃ t, badQuestion i jmp s = .ok (i+6) t ∧ Stored s i [0xC0, jmp, 0, 1, 0, 1] t := by
  have hlen (v : UInt16) : (encU16 v).length = 2 := rfl
  obtain ⟨t1, h1, s1⟩ := store_run (i := i) (b := [0xC0]) (by simp; omega) s
  obtain ⟨t2, h2, s2⟩ := store_run (i := i+1) (b := [jmp]) (by simp; omega) t1
  obtain ⟨t3, h3, s3⟩ := store_run (i := i+2) (b := encU16 1) (by rw [hlen]; omega) t2
  obtain ⟨t4, h4, s4⟩ := store_run (i := i+4) (b := encU16 1) (by rw [hlen]; omega) t3
  have h12 := s1.trans s2 rfl (by omega)
  have h123 := h12.trans s3 rfl (by omega)
  refine ⟨t4, ?_, h123.trans s4 rfl (by omega)⟩
  rw [badQuestion, bind_of_ok h1, bind_of_ok h2, bind_of_ok h3, bind_of_ok h4]
  rfl

def fuzzBytes (type : FuzzType) (id : UInt16) : Bytes :=
  hdrBytes { fuzzHdr type with id := id } ++ fuzzQuestion type

theorem slice_stored {b : Bytes} {t : DnsGen} (h : Stored s i b t)
    (hfit : i+b.length ≤ dnsMaxPdusize) : slice t.pktBuf i b.length = b := by
  rw [h.buf]
  apply slice_patch_at
  rw [s.size]
  change _ ≤ 2048 at hfit
  change _ ≤ 2048
  omega

/-- The messages with a whole header. -/
theorem encBadmsg_run {type : FuzzType} (id : UInt16) (hne : type ≠ .hdrTrunc)
    (h : i+18 ≤ dnsMaxPdusize) (s : DnsGen) :
    ∃ t, encBadmsg type id i s = .ok (i+(fuzzBytes type id).length) t ∧
      Stored s i (fuzzBytes type id) t := by
  obtain ⟨t, hrun, ht⟩ := genEncBadhdr_run id (fuzzHdr type)
    (show i+12 ≤ dnsMaxPdusize by omega) s
  have hquestion {jmp : UInt8} (hq : fuzzQuestion type = [0xC0, jmp, 0, 1, 0, 1]) :
      ∃ u, (genEncBadhdr id i (fuzzHdr type) >>= fun wptr => badQuestion wptr jmp) s =
        .ok (i+(fuzzBytes type id).length) u ∧ Stored s i (fuzzBytes type id) u := by
    obtain ⟨u, hrun', hu⟩ := badQuestion_run jmp (i := i+12) (by omega) t
    rw [fuzzBytes, hq]
    exact ⟨u, (bind_of_ok hrun _).trans hrun', ht.trans hu rfl (by omega)⟩
  cases type with
  | hdrTrunc => exact absurd rfl hne
  | hdrOpcode => exact ⟨t, hrun, ht⟩
  | hdrRcode => exact ⟨t, hrun, ht⟩
  | hdrQdcnt => exact ⟨t, hrun, ht⟩
  | qdCmploop => exact hquestion rfl
  | qdBadjmp => exact hquestion rfl

/-- The message stands behind what was in the packet, with its length counted. -/
theorem genEncBadmsg_run (type : FuzzType) (id : UInt16) (h : s.pktLen+18 ≤ dnsMaxPdusize) :
    ∃ t d, genEncBadmsg type id s = .ok () t ∧ IsFuzz type id d ∧
      t.pktLen = s.pktLen+d.length ∧ slice t.pktBuf s.pktLen d.length = d := by
  rw [genEncBadmsg, bind_of_ok (get_run s)]
  by_cases hne : type = .hdrTrunc
  · have hlen : (slice s.pktBuf s.pktLen 10).length = 10 := by
      apply length_slice
      rw [s.size]
      change _ ≤ 2048 at h
      change _ ≤ 2048
      omega
    have hten : s.pktLen+(s.pktLen+10-s.pktLen) = s.pktLen+10 := by omega
    subst hne
    refine ⟨{ s with pktLen := s.pktLen+10 }, slice s.pktBuf s.pktLen 10, ?_, hlen, ?_, ?_⟩
    · exact congrArg (fun n => Outcome.ok () { s with pktLen := n }) hten
    · rw [hlen]
    · rw [hlen]
  · obtain ⟨t, hrun, ht⟩ := encBadmsg_run id hne h s
    have hlen : (fuzzBytes type id).length ≤ 18 := by
      cases type <;> exact of_decide_eq_true rfl
    have hslice := slice_stored ht (by omega)
    refine ⟨_, fuzzBytes type id, bind_of_ok hrun _, ?_, ?_, hslice⟩
    · rw [IsFuzz, if_neg hne, fuzzBytes]
    · change t.pktLen+(s.pktLen+(fuzzBytes type id).length-s.pktLen) = _
      rw [ht.len]
      omega

end Generate

theorem isFuzz_length {type : FuzzType} {id : UInt16} {d : Bytes} (h : IsFuzz type id d) :
    10 ≤ d.length ∧ d.length ≤ 18 := by
  by_cases hne : type = .hdrTrunc
  · rw [IsFuzz, if_pos hne] at h
    omega
  · rw [IsFuzz, if_neg hne] at h
    rw [h]
    cases type <;> exact of_decide_eq_true rfl

/-- The frame that `run_fuzz` makes, whatever the state of the generator was. -/
theorem runFuzz_run (type : FuzzType) (id : UInt16) (gen : DnsGen) :
    ∃ t d, runFuzz type id gen = .ok () t ∧ packetMsg t = d ∧ IsFuzz type id d ∧
      frame t.toDnsGen = headers d.length (ipChecksum (ipHdr d.length 0)) ++ d := by
  obtain ⟨t, d, hrun, hfuzz, hlen, hd⟩ := genEncBadmsg_run (s := onPacket pcapStartPkt gen) type id
    (show 42+18 ≤ 2048 by decide)
  have hfit := (isFuzz_length hfuzz).2
  refine ⟨onPacket pcapEndPkt t, d, ?_, ?_, hfuzz, frame_eq hlen hd (hfit.trans (by decide))⟩
  · rw [runFuzz, bind_of_ok (modify_run _ _), bind_of_ok hrun]
    rfl
  · have hdata := slice_pcapEndPkt t.toDnsGen d.length
    have hback : t.pktLen-ethipudpLen = d.length := by
      have hstart : t.pktLen = 42+d.length := hlen
      change t.pktLen-42 = _
      omega
    have hpacket : packetMsg (onPacket pcapEndPkt t) = slice (pcapEndPkt t.toDnsGen).pktBuf
        ethipudpLen (t.pktLen-ethipudpLen) := rfl
    rw [hpacket, hback, hdata]
    exact hd

theorem fuzz_inspected {type : FuzzType} {id : UInt16} {d : Bytes} (h : IsFuzz type id d)
    (check : ℕ) (s : DnsInsp) : inspProcessPkt (headers d.length check ++ d) s =
      .ok (-1) { s with
        rcvPkts := s.rcvPkts+1
        dnsPkts := s.dnsPkts+1
        dnsFail := s.dnsFail+1
        out := s.out ++ fuzzReport id type } := by
  obtain ⟨u, hrun, -, htext, htail⟩ := fuzz_validated h
  have hjudge (t : DnsInsp) : judge d t = .ok (-1, fuzzReport id type) t := by
    rw [judge, hrun]
    simp only [htext, htail, List.append_nil]
  rw [inspProcessPkt_headers]
  obtain ⟨rc, emsg, hj, hdns⟩ | ⟨c, hj, -⟩ := inspDns_run d { s with rcvPkts := s.rcvPkts+1 }
  · obtain ⟨rfl, rfl⟩ : rc = -1 ∧ emsg = fuzzReport id type := by
      have heq := (hj s).symm.trans (hjudge s)
      simp only [Outcome.ok.injEq, Prod.mk.injEq, and_true] at heq
      exact heq
    simp only [hdns, judged, cstr_of_no_zero _ (fuzzReport_plain type id).2]
    rfl
  · have heq := (hj s).symm.trans (hjudge s)
    simp at heq

/-- The file of every message with a defect is opened, and `run_readpcap`
counts the message as refused and puts out the report on its defect. -/
theorem fuzz_file_refused (type : FuzzType) (id : UInt16) (gen : DnsGen) (ts : ℕ) (isNg : Bool)
    (s : DnsInsp) : ∃ t f u, runFuzz type id gen = .ok () t ∧ IsFuzz type id (packetMsg t) ∧
      pcapOpen (written false isNg false [(ts, frame t.toDnsGen)]) = some f ∧ f.isNg = isNg ∧
      runReadpcap (written false isNg false [(ts, frame t.toDnsGen)]) ⟨f, s, []⟩ = .ok (-1) u ∧
      u.seen = [frame t.toDnsGen] ∧ u.insp = { s with
        rcvPkts := s.rcvPkts+1
        dnsPkts := s.dnsPkts+1
        dnsFail := s.dnsFail+1
        out := s.out ++ fuzzReport id type } := by
  obtain ⟨t, d, hrun, hmsg, hfuzz, hframe⟩ := runFuzz_run type id gen
  have hinsp := fuzz_inspected hfuzz (ipChecksum (ipHdr d.length 0)) s
  rw [← hframe] at hinsp
  have hsmall := (isFuzz_length hfuzz).2
  have hpkt : (frame t.toDnsGen).length = 42+d.length := by
    rw [hframe, List.length_append, length_headers]
  obtain ⟨f, hopen, hng, hruns⟩ := one_frame_code ts isNg
    (List.ne_nil_of_length_pos (show 0 < (frame t.toDnsGen).length by omega))
    (show (frame t.toDnsGen).length ≤ 2048 by omega)
  obtain ⟨u, hreplay, hinsp', hseen⟩ := (hruns s (-1)).2 _ hinsp
  exact ⟨t, f, u, hrun, hmsg ▸ hfuzz, hopen, hng, hreplay, hseen, hinsp'⟩

end DnsPkt.FuzzMessages
