import DnsPkt.MessageParts

/-!
# Decoding after a bad entry

The loops over questions and records stop at an entry that does not return
zero. `dns_dec_err` returns zero when it has recorded an error, so an entry
that fails with an error on the stack does not stop its loop, and a loop that
did stop does not stop the message. An entry that fails otherwise, because
its line does not fit the report, is named by its row.
-/

set_option autoImplicit false

namespace DnsPkt.StoppedDecode
open DnsPkt.CheckedRun DnsPkt.CheckedRun.Run DnsPkt.Octets DnsPkt.Protocol
open DnsPkt.MessageStore DnsPkt.RecordDecoder DnsPkt.MessageDecoder DnsPkt.RecordRun
open DnsPkt.RecordFrame
open DnsPkt.AcceptedRun DnsPkt.SelfDelimiting DnsPkt.ReportedRecord DnsPkt.MessageParts

/-- An entry that is decoded, with its row and the parts behind its own. -/
structure Visit where
  part : Part
  later : List Part
  row : ℕ
  state : DecState

/-- The entries that are decoded from row `i` of a part on. -/
def partVisits (env : DecEnv) (p : Part) (later : List Part) (i n : ℕ) (s : DecState) :
    List Visit :=
  (visits (rowStep (p.entry env) p.loc) i n s).map fun v => ⟨p, later, v.1, v.2⟩

def partsVisits (env : DecEnv) : List Part → DecState → List Visit
  | [], _ => []
  | p :: rest, s => partVisits env p rest 0 (p.count s.msg.hdr) s ++
    match orReturn (decodePart env p) s with
    | .ok _ t => partsVisits env rest t
    | _ => []

def entryVisits (pkt : Bytes) (emsgLen : ℕ) : List Visit :=
  match decodeHead (validateEnv pkt emsgLen) (initState (zeroMsg 0)) with
  | .ok _ s => partsVisits (validateEnv pkt emsgLen) allParts s
  | _ => []

def closing (env : DecEnv) : Dec ℤ := do
  let rc ← sizeCheck env
  let ec ← dnsDecGenmsg env
  pure (if ec ≠ 0 ∧ rc = 0 then ec else rc)

def withRow (v : Visit) (u : DecState) : DecState :=
  { u with dec.errs := u.dec.errs ++ [⟨.pdu, v.part.loc, v.row+dnsEcIsrow⟩] }

def Fails (env : DecEnv) (v : Visit) (u : DecState) : Prop :=
  ∃ c, v.part.entry env v.state = .ok c u ∧ (c ≠ 0 ∨ u.dec.errs ≠ v.state.dec.errs)

/-- No entry is decoded behind one that fails. The failing entry leaves no
line, and what is left of the run is the error report with its section and row. -/
def StopsAtFailure (pkt : Bytes) (emsgLen : ℕ) : Prop :=
  ∀ pre v post u, entryVisits pkt emsgLen = pre ++ v :: post →
    Fails (validateEnv pkt emsgLen) v u →
    post = [] ∧ u.dec.emsg.text = v.state.dec.emsg.text ∧
      dnsValidate pkt emsgLen = closing (validateEnv pkt emsgLen) (withRow v u)

/-- The entry does not leave through `return dns_dec_err(...)` with its error
recorded, and where it fails otherwise no later part has entries. -/
structure Halts (env : DecEnv) (v : Visit) : Prop where
  unrecorded : ∀ u, v.part.body env v.state ≠ .exit 0 u
  last : ∀ c u, v.part.entry env v.state = .ok c u → c ≠ 0 →
    ∀ p ∈ v.later, p.count v.state.msg.hdr = 0

def rowsFrom (env : DecEnv) (p : Part) (i n : ℕ) : Dec ℤ :=
  call do
    loop (rowStep (p.entry env) p.loc) i n
    pure 0

def decodeFrom (env : DecEnv) (p : Part) (later : List Part) (i n : ℕ) : Dec Unit := do
  orReturn (rowsFrom env p i n)
  decodeParts env later

def visitsFrom (env : DecEnv) (p : Part) (later : List Part) (i n : ℕ) (s : DecState) :
    List Visit :=
  partVisits env p later i n s ++ match orReturn (rowsFrom env p i n) s with
    | .ok _ t => partsVisits env later t
    | _ => []

section Resume

variable {env : DecEnv} {p : Part} {later : List Part} {s t : DecState}

theorem decodeParts_cons : decodeParts env (p :: later) s =
    decodeFrom env p later 0 (p.count s.msg.hdr) s := by
  have hpart : decodePart env p s = rowsFrom env p 0 (p.count s.msg.hdr) s := rfl
  have hreturn : orReturn (decodePart env p) s =
      orReturn (rowsFrom env p 0 (p.count s.msg.hdr)) s := by
    simp only [orReturn, bind, hpart]
  simp only [decodeParts, decodeFrom, bind, hreturn]

theorem partsVisits_cons : partsVisits env (p :: later) s =
    visitsFrom env p later 0 (p.count s.msg.hdr) s := rfl

theorem decodeFrom_zero (i : ℕ) : decodeFrom env p later i 0 s = decodeParts env later s := rfl

theorem visitsFrom_zero (i : ℕ) : visitsFrom env p later i 0 s = partsVisits env later s := rfl

theorem rowsFrom_ok {i n : ℕ} (h : p.entry env s = .ok 0 t) :
    rowsFrom env p i (n+1) s = rowsFrom env p (i+1) n t := by
  have hstep : rowStep (p.entry env) p.loc i s = .ok () t := rowStep_ok.mpr h
  have hloop := loop_succ_of_ok hstep n
  simp only [rowsFrom, call, bind, hloop]

theorem decodeFrom_ok {i n : ℕ} (h : p.entry env s = .ok 0 t) :
    decodeFrom env p later i (n+1) s = decodeFrom env p later (i+1) n t := by
  simp only [decodeFrom, orReturn, bind, rowsFrom_ok h]

theorem visitsFrom_ok {i n : ℕ} (h : p.entry env s = .ok 0 t) :
    visitsFrom env p later i (n+1) s =
      ⟨p, later, i, s⟩ :: visitsFrom env p later (i+1) n t := by
  have hstep : rowStep (p.entry env) p.loc i s = .ok () t := rowStep_ok.mpr h
  have hreturn : orReturn (rowsFrom env p i (n+1)) s = orReturn (rowsFrom env p (i+1) n) t := by
    simp only [orReturn, bind, rowsFrom_ok h]
  rw [visitsFrom, visitsFrom, partVisits, visits_succ_of_ok hstep, hreturn]
  rfl

variable (later) in
theorem rowsFrom_failed (i n : ℕ) {c : ℤ} (h : p.entry env s = .ok c t) (hc : c ≠ 0) :
    rowsFrom env p i (n+1) s = .ok (dnsDecErr .pdu p.loc (i+dnsEcIsrow) t).1
      (dnsDecErr .pdu p.loc (i+dnsEcIsrow) t).2 ∧
    partVisits env p later i (n+1) s = [⟨p, later, i, s⟩] := by
  have hstep : rowStep (p.entry env) p.loc i s = .exit (dnsDecErr .pdu p.loc (i+dnsEcIsrow) t).1
      (dnsDecErr .pdu p.loc (i+dnsEcIsrow) t).2 := by
    rw [rowStep, bind_of_ok h, when_pos hc]
    rfl
  constructor
  · exact (call_ok _ _ _ _).mpr (.inr (bind_of_exit (bind_of_exit hstep _) _))
  · simp [partVisits, visits, hstep]

variable (later) in
/-- With room on the error stack a failed part is left as if it had been decoded. -/
theorem failed_recorded (i n : ℕ) {c : ℤ} (h : p.entry env s = .ok c t) (hc : c ≠ 0)
    (hroom : t.dec.errs.length < dnsMaxEmsg) :
    decodeFrom env p later i (n+1) s =
        decodeParts env later (withRow ⟨p, later, i, s⟩ t) ∧
      visitsFrom env p later i (n+1) s =
        ⟨p, later, i, s⟩ :: partsVisits env later (withRow ⟨p, later, i, s⟩ t) := by
  obtain ⟨hrows, hvisits⟩ := rowsFrom_failed later i n h hc
  rw [dnsDecErr, if_neg (Nat.not_le.mpr hroom)] at hrows
  have hreturn : orReturn (rowsFrom env p i (n+1)) s = .ok () (withRow ⟨p, later, i, s⟩ t) :=
    orReturn_ok.mpr hrows
  constructor
  · exact bind_of_ok hreturn _
  · rw [visitsFrom, hvisits, hreturn]
    rfl

variable (later) in
theorem failed_full (i n : ℕ) {c : ℤ} (h : p.entry env s = .ok c t) (hc : c ≠ 0)
    (hfull : dnsMaxEmsg ≤ t.dec.errs.length) :
    decodeFrom env p later i (n+1) s = .exit decErr t ∧
      visitsFrom env p later i (n+1) s = [⟨p, later, i, s⟩] := by
  obtain ⟨hrows, hvisits⟩ := rowsFrom_failed later i n h hc
  rw [dnsDecErr, if_pos hfull] at hrows
  have hreturn : orReturn (rowsFrom env p i (n+1)) s = .exit decErr t := by
    rw [orReturn, bind_of_ok hrows, when_pos (show decErr ≠ 0 by decide)]
    rfl
  constructor
  · exact bind_of_exit hreturn _
  · rw [visitsFrom, hvisits, hreturn]
    rfl

theorem visitsFrom_fault {i n : ℕ} {f : Fault} (h : p.entry env s = .fault f) :
    visitsFrom env p later i (n+1) s = [⟨p, later, i, s⟩] := by
  have hstep : rowStep (p.entry env) p.loc i s = .fault f := bind_of_fault h _
  have hrows : orReturn (rowsFrom env p i (n+1)) s = .fault f := by
    refine bind_of_fault ((call_fault _ _ _).mpr ?_) _
    exact bind_of_fault (bind_of_fault hstep _) _
  rw [visitsFrom, hrows, partVisits, visits, hstep]
  rfl

variable (env p later s) in
theorem visitsFrom_succ (i n : ℕ) : ∃ tail,
    visitsFrom env p later i (n+1) s = ⟨p, later, i, s⟩ :: tail := ⟨_, rfl⟩

theorem partsVisits_nil : partsVisits env later s = [] ↔ ∀ q ∈ later, q.count s.msg.hdr = 0 := by
  induction later with
  | nil => simp [partsVisits]
  | cons q rest ih =>
    rw [partsVisits_cons, List.forall_mem_cons]
    cases hn : q.count s.msg.hdr with
    | zero => rw [visitsFrom_zero, ih, and_iff_right rfl]
    | succ n =>
      obtain ⟨tail, htail⟩ := visitsFrom_succ env q rest s 0 n
      simp [htail]

theorem decodeParts_done (h : partsVisits env later s = []) :
    decodeParts env later s = .ok () s := by
  induction later with
  | nil => rfl
  | cons q rest ih =>
    have hcount := partsVisits_nil.mp h
    rw [List.forall_mem_cons] at hcount
    rw [decodeParts_cons, hcount.1, decodeFrom_zero]
    exact ih (partsVisits_nil.mpr hcount.2)

end Resume

/-- The run can be taken up at an entry. Unless an entry before it failed,
the error stack is still that of the start. -/
def Reaches (env : DecEnv) (run : Outcome DecState ℤ Fault Unit) (s : DecState)
    (pre : List Visit) (v : Visit) (post : List Visit) : Prop :=
  ∃ k, run = decodeFrom env v.part v.later v.row (k+1) v.state ∧
    visitsFrom env v.part v.later v.row (k+1) v.state = v :: post ∧
    ((∀ w ∈ pre, ∀ u, ¬ Fails env w u) → v.state.dec.errs = s.dec.errs)

theorem rows_reach {env : DecEnv} {p : Part} {later : List Part} {v : Visit} {post : List Visit}
    (hlater : ∀ s pre, partsVisits env later s = pre ++ v :: post →
      Reaches env (decodeParts env later s) s pre v post)
    {i n : ℕ} {s : DecState} {pre : List Visit}
    (h : visitsFrom env p later i n s = pre ++ v :: post) :
    Reaches env (decodeFrom env p later i n s) s pre v post := by
  induction n generalizing i s pre with
  | zero => exact hlater s pre h
  | succ n ih =>
    cases pre with
    | nil =>
      obtain ⟨tail, htail⟩ := visitsFrom_succ env p later s i n
      have hhead := htail.symm.trans h
      simp only [List.nil_append, List.cons.injEq] at hhead
      obtain ⟨rfl, rfl⟩ := hhead
      exact ⟨n, rfl, h, fun _ => rfl⟩
    | cons w pre =>
      cases hrun : p.entry env s with
      | fault f =>
        rw [visitsFrom_fault hrun] at h
        simp at h
      | exit e t => exact absurd hrun (call_ne_exit _ _ _ _)
      | ok c t =>
        by_cases hc : c = 0
        · subst hc
          rw [visitsFrom_ok hrun, List.cons_append, List.cons.injEq] at h
          obtain ⟨rfl, h⟩ := h
          obtain ⟨k, hfrom, hvisits, herrs⟩ := ih h
          refine ⟨k, (decodeFrom_ok hrun).trans hfrom, hvisits, fun hclean => ?_⟩
          rw [List.forall_mem_cons] at hclean
          rw [herrs hclean.2]
          by_contra hne
          exact hclean.1 t ⟨0, hrun, .inr hne⟩
        · by_cases hfull : dnsMaxEmsg ≤ t.dec.errs.length
          · rw [(failed_full _ _ _ hrun hc hfull).2] at h
            simp at h
          · obtain ⟨hrec, hvis⟩ := failed_recorded later i n hrun hc
              (Nat.lt_of_not_le hfull)
            rw [hvis, List.cons_append, List.cons.injEq] at h
            obtain ⟨rfl, h⟩ := h
            obtain ⟨k, hfrom, hvisits, -⟩ := hlater _ pre h
            refine ⟨k, hrec.trans hfrom, hvisits, fun hclean => ?_⟩
            rw [List.forall_mem_cons] at hclean
            exact absurd ⟨c, hrun, .inl hc⟩ (hclean.1 t)

theorem parts_reach {env : DecEnv} {later : List Part} {v : Visit} {post : List Visit}
    {s : DecState} {pre : List Visit} (h : partsVisits env later s = pre ++ v :: post) :
    Reaches env (decodeParts env later s) s pre v post := by
  induction later generalizing s pre with
  | nil => simp [partsVisits] at h
  | cons p rest ih =>
    rw [decodeParts_cons]
    exact rows_reach (fun _ _ => ih) h

/-- A failing entry that halts: its row is recorded, and it was the last one. -/
theorem halted {env : DecEnv} {v : Visit} {u : DecState} {k : ℕ} {post : List Visit}
    (henv : ∃ pkt emsgLen, env = validateEnv pkt emsgLen) (hhalts : Halts env v)
    (hfails : Fails env v u) (hroom : v.state.dec.errs.length < dnsMaxEmsg)
    (hvisits : visitsFrom env v.part v.later v.row (k+1) v.state = v :: post) :
    post = [] ∧ u.dec.emsg.text = v.state.dec.emsg.text ∧
      decodeFrom env v.part v.later v.row (k+1) v.state = .ok () (withRow v u) := by
  obtain ⟨pkt, emsgLen, rfl⟩ := henv
  obtain ⟨c, hrun, hfail⟩ := hfails
  rcases entry_ok hrun with ⟨line, m, hline, rfl, -, rfl⟩ | ⟨hexit, -⟩ | ⟨hc, htext, herrs, hhdr⟩
  · have herrs := ((line_keeps _ _).ok hline).2.1
    exact absurd hfail (by simp [told, herrs])
  · exact absurd hexit (hhalts.unrecorded u)
  · have hne : c ≠ 0 := by omega
    obtain ⟨hfrom, hvis⟩ := failed_recorded v.later v.row k hrun hne
      (by rw [herrs]; exact hroom)
    have hnone : partsVisits (validateEnv pkt emsgLen) v.later (withRow v u) = [] := by
      apply partsVisits_nil.mpr
      intro p hp
      have hcount := hhalts.last c u hrun hne p hp
      rw [← hhdr] at hcount
      exact hcount
    have hpost := hvis.symm.trans hvisits
    rw [List.cons.injEq] at hpost
    exact ⟨hpost.2.symm.trans hnone, htext, hfrom.trans (decodeParts_done hnone)⟩

def stackFrame : Frame DecState ℤ Fault where
  keep s t := t.dec.errs = s.dec.errs
  leave _ _ _ := False
  raise _ := False
  refl _ := rfl
  trans h1 h2 := h2.trans h1
  lift _ h := h

theorem sizeCheck_stack (env : DecEnv) : Keeps stackFrame (sizeCheck env) := by
  refine keeps_get.bind fun s => ?_
  split
  · exact keeps_dnsWmsg (fun _ _ => rfl) env _
  · exact keeps_pure _

theorem dnsDecGenmsg_stack (env : DecEnv) : Keeps stackFrame (dnsDecGenmsg env) :=
  keeps_dnsDecGenmsg (fun s b => put_errs s 0 b) (fun _ _ => rfl) env

theorem closing_total (env : DecEnv) (s : DecState) :
    ∃ c t, closing env s = .ok c t ∧ t.dec.errs = s.dec.errs :=
  ((sizeCheck_stack env).bind fun _ => (dnsDecGenmsg_stack env).bind fun _ =>
    keeps_pure _).total s (fun _ _ => id) fun _ => id

theorem dnsDecErr_length (group field : DnsLocation) (ec : ℤ) (s : DecState) :
    (dnsDecErr group field ec s).2.dec.errs.length ≤ s.dec.errs.length+1 := by
  unfold dnsDecErr
  split <;> simp

theorem checkFlags_run (flags : UInt16) (s : DecState) :
    ∃ t, checkFlags flags s = .ok () t ∧ t.dec.errs.length ≤ s.dec.errs.length+1 := by
  unfold checkFlags Run.when
  split_ifs
  · exact ⟨_, rfl, dnsDecErr_length _ _ _ s⟩
  · exact ⟨s, rfl, Nat.le_succ _⟩
  · exact ⟨_, rfl, dnsDecErr_length _ _ _ s⟩
  · exact ⟨s, rfl, Nat.le_succ _⟩

/-- The header records at most one error. -/
theorem hdrBody_errs {env : DecEnv} (he : env.needEmsg = true) (s : DecState) :
    ∃ c t, (hdrBody env s = .ok c t ∨ hdrBody env s = .exit c t) ∧
      t.dec.errs.length ≤ s.dec.errs.length+1 := by
  by_cases hlen : dnsHdrLen ≤ env.pkt.length
  · obtain ⟨m, hm, hle⟩ := checkFlags_run (hdrOf env.pkt).flags (hdrState env.pkt s)
    obtain ⟨c, t, ht⟩ := dnsWmsg_total env (hdrLine (hdrOf env.pkt)) m
    refine ⟨c, t, .inl ?_, ?_⟩
    · rw [hdrBody_run he hlen, bind_of_ok hm]
      exact ht
    · rw [(dnsWmsg_ok ht).1]
      exact hle
  · have hshort : hdrBody env s = .exit (dnsDecErr .pdu .hdr DnsEc.ehdrlen.code s).1
        (dnsDecErr .pdu .hdr DnsEc.ehdrlen.code s).2 := by
      rw [hdrBody, when_pos (Nat.lt_of_not_le hlen)]
      rfl
    exact ⟨_, _, .inr hshort, dnsDecErr_length _ _ _ s⟩

section Validate

variable {pkt : Bytes} {emsgLen : ℕ} {s t : DecState}

theorem decodeHead_errs {env : DecEnv} (he : env.needEmsg = true) {m : DnsMsg}
    (h : decodeHead env (initState m) = .ok () s) : s.dec.errs.length < dnsMaxEmsg := by
  rw [decodeHead, bind_of_ok (modify_run _ _)] at h
  have hhdr := orReturn_ok.mp h
  obtain ⟨c, t, ht, hle⟩ := hdrBody_errs he (initState (dnsMsgReset m))
  have hret : decodeHdr env (initState (dnsMsgReset m)) = .ok c t := (call_ok _ _ _ _).mpr ht
  obtain ⟨-, rfl⟩ := Outcome.ok.inj (hret.symm.trans hhdr)
  have hbound : (1 : ℕ) < dnsMaxEmsg := by decide
  exact hle.trans_lt hbound

theorem validate_of_parts
    (hhead : decodeHead (validateEnv pkt emsgLen) (initState (zeroMsg 0)) = .ok () s)
    (hparts : decodeParts (validateEnv pkt emsgLen) allParts s = .ok () t) :
    dnsValidate pkt emsgLen = closing (validateEnv pkt emsgLen) t := by
  obtain ⟨rc, u, hsize, -⟩ := (sizeCheck_stack (validateEnv pkt emsgLen)).total t
    (fun _ _ => id) fun _ => id
  have hmsg : decodeMsg (validateEnv pkt emsgLen) (initState (zeroMsg 0)) = .ok rc u := by
    rw [decodeMsg_parts]
    refine (call_ok _ _ _ _).mpr (.inl ?_)
    rw [bind_of_ok hhead, bind_of_ok hparts]
    exact hsize
  rw [dnsValidate, validateRun, bind_of_ok hmsg, closing, bind_of_ok hsize]

theorem validate_of_exit {c : ℤ}
    (hhead : decodeHead (validateEnv pkt emsgLen) (initState (zeroMsg 0)) = .ok () s)
    (hparts : decodeParts (validateEnv pkt emsgLen) allParts s = .exit c t) :
    ∃ c' t', dnsValidate pkt emsgLen = .ok c' t' ∧ t'.dec.errs = t.dec.errs := by
  have hmsg : decodeMsg (validateEnv pkt emsgLen) (initState (zeroMsg 0)) = .ok c t := by
    rw [decodeMsg_parts]
    refine (call_ok _ _ _ _).mpr (.inr ?_)
    rw [bind_of_ok hhead]
    exact bind_of_exit hparts _
  rw [dnsValidate, validateRun, bind_of_ok hmsg]
  exact ((dnsDecGenmsg_stack _).bind fun _ => keeps_pure _).total t (fun _ _ => id) fun _ => id

end Validate

/-- Behind a row that was recorded the error stack is longer. -/
theorem closing_row_ne {env : DecEnv} {v : Visit} {u t : DecState} {c : ℤ}
    (ht : t.dec.errs = u.dec.errs) : closing env (withRow v u) ≠ .ok c t := by
  intro h
  obtain ⟨c', t', h', herrs⟩ := closing_total env (withRow v u)
  rw [h'] at h
  cases h
  simp [herrs, withRow] at ht

theorem entryVisits_split {pkt : Bytes} {emsgLen : ℕ} {pre post : List Visit} {v : Visit}
    (h : entryVisits pkt emsgLen = pre ++ v :: post) :
    ∃ s, decodeHead (validateEnv pkt emsgLen) (initState (zeroMsg 0)) = .ok () s ∧
      Reaches (validateEnv pkt emsgLen) (decodeParts (validateEnv pkt emsgLen) allParts s) s
        pre v post := by
  unfold entryVisits at h
  cases hhead : decodeHead (validateEnv pkt emsgLen) (initState (zeroMsg 0)) with
  | ok x s =>
    rw [hhead] at h
    exact ⟨s, rfl, parts_reach h⟩
  | exit e s => simp [hhead] at h
  | fault f => simp [hhead] at h

theorem stops_of_halts {pkt : Bytes} {emsgLen : ℕ}
    (hhalts : ∀ v ∈ entryVisits pkt emsgLen, Halts (validateEnv pkt emsgLen) v) :
    StopsAtFailure pkt emsgLen := by
  intro pre
  induction hlen : pre.length using Nat.strong_induction_on generalizing pre with
  | _ len ih =>
    intro v post u hsplit hfails
    obtain ⟨s, hhead, k, hfrom, hvisits, herrs⟩ := entryVisits_split hsplit
    -- An entry that failed before this one would have been the last.
    have hclean : ∀ w ∈ pre, ∀ x, ¬ Fails (validateEnv pkt emsgLen) w x := by
      intro w hw x hx
      obtain ⟨before, after, rfl⟩ := List.append_of_mem hw
      have hshort : before.length < len := by
        simp only [List.length_append, List.length_cons] at hlen
        omega
      have hnone := ih before.length hshort
        before rfl w (after ++ v :: post) x (by simpa using hsplit) hx
      simp at hnone
    have hroom : v.state.dec.errs.length < dnsMaxEmsg := by
      rw [herrs hclean]
      exact decodeHead_errs rfl hhead
    obtain ⟨hpost, htext, hrun⟩ := halted ⟨pkt, emsgLen, rfl⟩
      (hhalts v (by rw [hsplit]; simp)) hfails hroom hvisits
    exact ⟨hpost, htext, validate_of_parts hhead (hfrom.trans hrun)⟩

theorem halts_of_stops {pkt : Bytes} {emsgLen : ℕ} (hstops : StopsAtFailure pkt emsgLen) :
    ∀ v ∈ entryVisits pkt emsgLen, Halts (validateEnv pkt emsgLen) v := by
  intro v hv
  obtain ⟨pre, post, hsplit⟩ := List.append_of_mem hv
  obtain ⟨s, hhead, k, hfrom, hvisits, -⟩ := entryVisits_split hsplit
  constructor
  · intro u hexit
    have hrun : v.part.entry (validateEnv pkt emsgLen) v.state = .ok 0 u :=
      (call_ok _ _ _ _).mpr (.inr hexit)
    obtain ⟨-, -, ⟨-, -, err, herr⟩ | ⟨hc, -⟩⟩ := body_exit hexit
    · obtain ⟨rfl, -, hclosing⟩ := hstops pre v post u hsplit ⟨0, hrun, .inr (by simp [herr])⟩
      rw [visitsFrom_ok hrun, List.cons.injEq] at hvisits
      cases k with
      | zero =>
        rw [decodeFrom_ok hrun, decodeFrom_zero, decodeParts_done hvisits.2] at hfrom
        have hsame := (validate_of_parts hhead hfrom).symm.trans hclosing
        obtain ⟨c, t, ht, herrs⟩ := closing_total (validateEnv pkt emsgLen) u
        exact closing_row_ne herrs (hsame.symm.trans ht)
      | succ k =>
        obtain ⟨tail, htail⟩ := visitsFrom_succ (validateEnv pkt emsgLen) v.part v.later u
          (v.row+1) k
        simp [htail] at hvisits
    · exact absurd hc (by decide)
  · intro c u hrun hc p hp
    obtain ⟨rfl, -, hclosing⟩ := hstops pre v post u hsplit ⟨c, hrun, .inl hc⟩
    by_cases hfull : dnsMaxEmsg ≤ u.dec.errs.length
    · rw [(failed_full _ _ _ hrun hc hfull).1] at hfrom
      obtain ⟨c', t, ht, herrs⟩ := validate_of_exit hhead hfrom
      exact absurd (hclosing.symm.trans ht) (closing_row_ne herrs)
    · rw [(failed_recorded _ _ _ hrun hc (Nat.lt_of_not_le hfull)).2, List.cons.injEq] at hvisits
      have hhdr : u.msg.hdr = v.state.msg.hdr := by
        rcases entry_ok hrun with ⟨_, _, _, h0, _⟩ | ⟨_, h0, _⟩ | ⟨_, _, _, hhdr⟩
        · exact absurd h0 hc
        · exact absurd h0 hc
        · exact hhdr
      have hcount := partsVisits_nil.mp hvisits.2 p hp
      rw [← hhdr]
      exact hcount

/-- Decoding stops at the first bad entry exactly when no entry that is
decoded fails with its error recorded, and an entry that fails otherwise has
no entries in the parts behind its own. -/
theorem stops_at_failure_iff (pkt : Bytes) (emsgLen : ℕ) :
    StopsAtFailure pkt emsgLen ↔
      ∀ v ∈ entryVisits pkt emsgLen, Halts (validateEnv pkt emsgLen) v :=
  ⟨halts_of_stops, stops_of_halts⟩

def nestedAnswerPkt : Bytes :=
  responseHdr 2 0 0 ++ [0, 0, 1, 0, 1, 0, 0, 0, 60, 0, 15] ++
    [0, 0, 1, 0, 1, 0, 0, 0, 60, 0, 4, 9, 9, 9, 9]

/-- The second answer is decoded from the RDATA of the first, which failed. -/
theorem nested_answer_decoded : ¬ StopsAtFailure nestedAnswerPkt 4096 := by
  have hrun : (entryVisits nestedAnswerPkt 4096).map (fun v =>
      ((v.part.entry (validateEnv nestedAnswerPkt 4096) v.state).result.map
        fun p => (p.1, p.2.dec.errs.length), v.state.dec.errs.length, v.state.dec.offset)) =
      [(some (0, 1), 0, 12), (some (0, 1), 1, 23)] := by decide +kernel
  intro hstops
  obtain ⟨v, rest, hvisits, hv, hrest⟩ := List.map_eq_cons_iff.mp hrun
  obtain ⟨w, rest', rfl, -, hrest'⟩ := List.map_eq_cons_iff.mp hrest
  obtain ⟨c, u, hentry, hcode⟩ := Outcome.eq_ok (Prod.mk.inj hv).1
  have hfails : Fails (validateEnv nestedAnswerPkt 4096) v u := by
    refine ⟨c, hentry, .inr fun hsame => ?_⟩
    have hgrown := (Prod.mk.inj hcode).2
    have hempty := (Prod.mk.inj (Prod.mk.inj hv).2).1
    rw [hsame] at hgrown
    omega
  have hnone := (hstops [] v (w :: rest') u hvisits hfails).1
  cases hnone

end DnsPkt.StoppedDecode
