import DnsPkt.ReportedRecord

/-!
# The sections of a message as one sequence of entries

Questions and the three sections of records are decoded by the same loop, so
the decoder of a message is its header followed by the loop over four parts.
Of an entry only its line depends on the report: the line is decoded first,
and appending it is the last statement. In a validating run an entry
therefore falls through exactly when its line does, and returns zero when the
line fits.
-/

set_option autoImplicit false

namespace DnsPkt.MessageParts
open DnsPkt.CheckedRun DnsPkt.CheckedRun.Run DnsPkt.Octets DnsPkt.Protocol
open DnsPkt.MessageStore DnsPkt.MessageSlots DnsPkt.RecordDecoder DnsPkt.MessageDecoder
open DnsPkt.RecordRun DnsPkt.RecordFrame DnsPkt.RecordEntry DnsPkt.MessageRun
open DnsPkt.AcceptedRun DnsPkt.SelfDelimiting DnsPkt.ReportedRecord

inductive Part where
  | question
  | records (sc : Sect)

def Part.loc : Part → DnsLocation
  | .question => .qd
  | .records sc => Sect.loc sc

def Part.count (hdr : DnsHdr) : Part → ℕ
  | .question => hdr.qdCount.toNat
  | .records sc => sectCount hdr sc

def Part.body (env : DecEnv) : Part → Dec ℤ
  | .question => qdBody env
  | .records sc => rrBody env sc

def Part.entry (env : DecEnv) (p : Part) : Dec ℤ := call (p.body env)

def allParts : List Part := [.question, .records .an, .records .ns, .records .ar]

def decodePart (env : DecEnv) (p : Part) : Dec ℤ := do
  let s ← get
  rows (p.entry env) p.loc (p.count s.msg.hdr)

def decodeParts (env : DecEnv) : List Part → Dec Unit
  | [] => pure ()
  | p :: rest => do
    orReturn (decodePart env p)
    decodeParts env rest

def decodeHead (env : DecEnv) : Dec Unit := do
  modify fun s => { s with msg := dnsMsgReset s.msg }
  orReturn (decodeHdr env)

theorem decodeSects_parts (env : DecEnv) (scs : List Sect) :
    decodeSects env scs = decodeParts env (scs.map .records) := by
  induction scs with
  | nil => rfl
  | cons sc rest ih =>
    rw [decodeSects, ih]
    rfl

theorem decodeMsg_parts (env : DecEnv) : decodeMsg env =
    call (decodeHead env >>= fun _ => decodeParts env allParts >>= fun _ => sizeCheck env) := by
  have hquest : decodeQd env = decodePart env .question := rfl
  simp only [decodeMsg, decodeFront, decodeHead, bind_assoc, decodeSects_parts, hquest, allParts,
    decodeParts, List.map]

def questionLine (env : DecEnv) : Dec Bytes := do
  let _ ← qdName env
  let (qtype, qclass) ← qdFixed env
  let name ← msgStr 0
  pure (qdLine name qtype qclass)

def recordLine (env : DecEnv) (sc : Sect) : Dec Bytes := do
  let (h, out) ← rrFill env sc
  let name ← nameText out
  let desc ← descText out.desc
  pure (rrLine sc h name desc)

def Part.line (env : DecEnv) : Part → Dec Bytes
  | .question => questionLine env
  | .records sc => recordLine env sc

theorem body_line {env : DecEnv} (he : env.needEmsg = true) (hl : env.loadMsg = false)
    (p : Part) : p.body env = p.line env >>= dnsWmsg env := by
  have hload (x : Dec Unit) : when (env.loadMsg = true) x = pure () := when_neg (by simp [hl]) x
  cases p with
  | question =>
    have hslot : qdSlot env = pure () := by
      funext s
      rw [qdSlot, bind_of_ok (get_run s), when_neg (by simp [hl])]
    simp only [Part.body, Part.line, qdBody, questionLine, hslot, hload, he, if_true, pure_bind,
      bind_assoc]
  | records sc =>
    have hslot : rrSlot env sc = pure () := by
      funext s
      rw [rrSlot, bind_of_ok (get_run s), when_neg (by simp [hl])]
    simp only [Part.body, Part.line, rrBody_eq, recordLine, hslot, hload, rrReport, he, if_true,
      pure_bind, bind_assoc]

section Room

variable (env : DecEnv) (n : ℕ)

theorem describeVals_room (vals : List (String × UInt32)) (w : ℕ) (rc : ℤ) :
    describeVals { env with emsgLen := n } vals w rc = describeVals env vals w rc := by
  induction vals generalizing w rc with
  | nil => rfl
  | cons v rest ih =>
    simp only [describeVals, ih]
    rfl

theorem txtLoop_room (sc : Sect) (rdEnd k w : ℕ) (rc : ℤ) :
    txtLoop { env with emsgLen := n } sc rdEnd k w rc = txtLoop env sc rdEnd k w rc := by
  induction k generalizing w rc with
  | zero => rfl
  | succ k ih =>
    simp only [txtLoop, ih]
    rfl

theorem rrRdata_room (sc : Sect) (h : RrHdr) (w start rdEnd : ℕ) (rc : ℤ) :
    rrRdata { env with emsgLen := n } sc h w start rdEnd rc =
      rrRdata env sc h w start rdEnd rc := by
  unfold rrRdata
  cases rrKind h.rrType with
  | soa =>
    simp only [rdataSoa, describeVals_room]
    rfl
  | txt => simp only [rdataTxt, txtLoop_room]
  | _ => rfl

theorem line_room (p : Part) : p.line { env with emsgLen := n } = p.line env := by
  cases p with
  | question => rfl
  | records sc =>
    simp only [Part.line, recordLine, rrFill, rrRdata_room]
    rfl

end Room

theorem validate_line (pkt : Bytes) (emsgLen : ℕ) (p : Part) :
    p.line (validateEnv pkt emsgLen) = p.line (validateEnv pkt 0) :=
  line_room (validateEnv pkt 0) emsgLen p

def lineFrame : Frame DecState ℤ Fault where
  keep s t := t.dec.emsg = s.dec.emsg ∧ errFrame.keep s t
  leave s c t := t.dec.emsg = s.dec.emsg ∧ errFrame.leave s c t
  raise _ := True
  refl s := ⟨rfl, errFrame.refl s⟩
  trans h1 h2 := ⟨h2.1.trans h1.1, errFrame.trans h1.2 h2.2⟩
  lift h1 h2 := ⟨h2.1.trans h1.1, errFrame.lift h1.2 h2.2⟩

theorem lineFrame_allows : AllowsFill 0 lineFrame where
  put s w b hw := ⟨put_emsg s w b, errFrame_allows.put s w b hw⟩
  move s off h := ⟨rfl, errFrame_allows.move s off h⟩
  load s m h := ⟨rfl, errFrame_allows.load s m h⟩
  err s group field ec := by
    refine ⟨?_, errFrame_err s group field ec⟩
    unfold dnsDecErr
    split <;> rfl
  fail s := ⟨rfl, errFrame_allows.fail s⟩
  reads _ := trivial
  writes _ := trivial
  strings _ := trivial

theorem line_keeps (env : DecEnv) (p : Part) : Keeps lineFrame (p.line env) := by
  have hF := lineFrame_allows
  cases p with
  | question =>
    exact (keeps_qdName hF env).bind fun _ => (keeps_qdFixed hF env).bind fun _ =>
      (keeps_msgStr hF 0).bind fun _ => keeps_pure _
  | records sc =>
    exact (keeps_rrFill hF env sc rfl fun _ _ _ => ⟨rfl, rfl, rfl⟩).bind fun _ =>
      (keeps_nameText hF _).bind fun _ => (keeps_descText hF _).bind fun _ => keeps_pure _

theorem dnsWmsg_over {env : DecEnv} {text : Bytes} {s : DecState}
    (h : env.emsgLen ≤ s.dec.emsg.text.length+text.length) :
    ∃ tail, dnsWmsg env text s = .ok (-1) { s with dec.emsg.tail := tail } := by
  have hroom : env.emsgLen-s.dec.emsg.text.length ≤ text.length := by omega
  exact ⟨_, if_pos hroom⟩

section Entry

variable {pkt : Bytes} {emsgLen : ℕ} {p : Part} {s t : DecState} {c : ℤ}

theorem entry_told {line : Bytes} {u : DecState} (h : p.line (validateEnv pkt 0) s = .ok line u)
    (hroom : s.dec.emsg.text.length+line.length < emsgLen) :
    p.body (validateEnv pkt emsgLen) s = .ok 0 (told u line) := by
  have hemsg := ((line_keeps _ p).ok h).1
  rw [body_line rfl rfl, validate_line, bind_of_ok h]
  apply dnsWmsg_fits
  rw [hemsg]
  exact hroom

/-- A body that falls through has decoded its line and has tried to append it. -/
theorem body_ok (h : p.body (validateEnv pkt emsgLen) s = .ok c t) :
    ∃ line u, p.line (validateEnv pkt 0) s = .ok line u ∧
      ((c = 0 ∧ s.dec.emsg.text.length+line.length < emsgLen ∧ t = told u line) ∨
        (c = -1 ∧ emsgLen ≤ s.dec.emsg.text.length+line.length ∧
          t.dec.emsg.text = s.dec.emsg.text ∧ errFrame.keep s t)) := by
  rw [body_line rfl rfl, validate_line] at h
  obtain ⟨line, u, hu, hw⟩ := (bind_ok _ _ _ _ _).mp h
  obtain ⟨hemsg, herrs⟩ := (line_keeps _ p).ok hu
  refine ⟨line, u, hu, ?_⟩
  by_cases hroom : s.dec.emsg.text.length+line.length < emsgLen
  · have hfits : dnsWmsg (validateEnv pkt emsgLen) line u = .ok 0 (told u line) :=
      dnsWmsg_fits (by rw [hemsg]; exact hroom)
    rw [hfits] at hw
    cases hw
    exact .inl ⟨rfl, hroom, rfl⟩
  · have hfull : (validateEnv pkt emsgLen).emsgLen ≤ u.dec.emsg.text.length+line.length := by
      rw [hemsg]
      exact Nat.le_of_not_lt hroom
    obtain ⟨tail, hover⟩ := dnsWmsg_over hfull
    rw [hover] at hw
    cases hw
    have htext : u.dec.emsg.text = s.dec.emsg.text := congrArg Emsg.text hemsg
    exact .inr ⟨rfl, Nat.le_of_not_lt hroom, htext, herrs⟩

theorem body_exit (h : p.body (validateEnv pkt emsgLen) s = .exit c t) : lineFrame.leave s c t := by
  rw [body_line rfl rfl] at h
  rcases (bind_exit _ _ _ _ _).mp h with h | ⟨line, u, -, h⟩
  · exact (line_keeps _ p).exit h
  · obtain ⟨c', t', hw⟩ := dnsWmsg_total (validateEnv pkt emsgLen) line u
    rw [hw] at h
    cases h

/-- What an entry leaves behind: its line, an error on the stack and the
code zero, or nothing and the code minus one. -/
theorem entry_ok (h : p.entry (validateEnv pkt emsgLen) s = .ok c t) :
    (∃ line u, p.line (validateEnv pkt 0) s = .ok line u ∧ c = 0 ∧
        s.dec.emsg.text.length+line.length < emsgLen ∧ t = told u line) ∨
      (p.body (validateEnv pkt emsgLen) s = .exit 0 t ∧ c = 0 ∧ t.msg.hdr = s.msg.hdr ∧
        ∃ err, t.dec.errs = s.dec.errs ++ [err]) ∨
      (c = -1 ∧ t.dec.emsg.text = s.dec.emsg.text ∧ errFrame.keep s t) := by
  rcases (call_ok _ _ _ _).mp h with h | h
  · obtain ⟨line, u, hu, h' | ⟨hc, -, hkept⟩⟩ := body_ok h
    · exact .inl ⟨line, u, hu, h'⟩
    · exact .inr (.inr ⟨hc, hkept⟩)
  · obtain ⟨hemsg, hhdr, ⟨rfl, -, err, herr⟩ | ⟨hc, herrs⟩⟩ := body_exit h
    · exact .inr (.inl ⟨h, rfl, hhdr, err, herr⟩)
    · exact .inr (.inr ⟨hc, congrArg Emsg.text hemsg, herrs, hhdr⟩)

end Entry

end DnsPkt.MessageParts
