import DnsPkt.RecordView
import DnsPkt.ScratchText
import DnsPkt.SelfDelimiting

/-!
# Records that are reported

The size of the report buffer shows in a validating run only where a line is
appended. A run settles when it has one outcome for every large enough buffer.
Questions with a readable name settle, and so do records of the address and
name types whose names are short enough for a `dns_msg`.
-/

set_option autoImplicit false

namespace DnsPkt.ReportedRecord
open DnsPkt.CheckedRun DnsPkt.CheckedRun.Run DnsPkt.Octets DnsPkt.Protocol
open DnsPkt.MessageStore DnsPkt.ReportText DnsPkt.RecordDecoder DnsPkt.MessageDecoder
open DnsPkt.RecordRun DnsPkt.RecordFrame DnsPkt.RecordEntry DnsPkt.MessageRun
open DnsPkt.AcceptedRun DnsPkt.ScratchBounds DnsPkt.ScratchText DnsPkt.SelfDelimiting
open DnsPkt.RecordView

def Settles {α : Type} (pkt : Bytes) (x : DecEnv → Dec α) (s : DecState) (a : α) (t : DecState) :
    Prop :=
  ∃ need, ∀ cap, need ≤ cap → x (validateEnv pkt cap) s = .ok a t

section Settles

variable {α β : Type} {pkt : Bytes} {x : DecEnv → Dec α} {s t u : DecState} {a : α} {b : β}

theorem settles_always (h : ∀ cap, x (validateEnv pkt cap) s = .ok a t) : Settles pkt x s a t :=
  ⟨0, fun cap _ => h cap⟩

theorem Settles.bind {f : DecEnv → α → Dec β} (hx : Settles pkt x s a t)
    (hf : Settles pkt (fun env => f env a) t b u) :
    Settles pkt (fun env => x env >>= f env) s b u := by
  obtain ⟨n1, h1⟩ := hx
  obtain ⟨n2, h2⟩ := hf
  refine ⟨max n1 n2, fun cap hcap => ?_⟩
  exact (bind_of_ok (h1 cap (le_of_max_le_left hcap)) _).trans (h2 cap (le_of_max_le_right hcap))

theorem settles_call {x : DecEnv → Dec ℤ} {rc : ℤ} (hx : Settles pkt x s rc t) :
    Settles pkt (fun env => (call (x env) : Dec ℤ)) s rc t := by
  obtain ⟨n, h⟩ := hx
  exact ⟨n, fun cap hcap => (call_ok _ _ _ _).mpr (.inl (h cap hcap))⟩

def told (s : DecState) (text : Bytes) : DecState :=
  { s with dec.emsg := ⟨s.dec.emsg.text ++ text, []⟩ }

theorem dnsWmsg_fits {env : DecEnv} {text : Bytes} {s : DecState}
    (h : s.dec.emsg.text.length+text.length+1 ≤ env.emsgLen) :
    dnsWmsg env text s = .ok 0 (told s text) := by
  have hroom : ¬ env.emsgLen-s.dec.emsg.text.length ≤ text.length := by omega
  exact if_neg hroom

/-- A run that comes down to the line it appends. -/
theorem settles_line {x : DecEnv → Dec ℤ} {text : Bytes}
    (h : ∀ cap, x (validateEnv pkt cap) s = dnsWmsg (validateEnv pkt cap) text t) :
    Settles pkt x s 0 (told t text) :=
  ⟨t.dec.emsg.text.length+text.length+1, fun cap hcap => (h cap).trans (dnsWmsg_fits hcap)⟩

theorem settles_rowStep {entry : DecEnv → Dec ℤ} (h : Settles pkt entry s 0 t)
    (loc : DnsLocation) (i : ℕ) :
    Settles pkt (fun env => rowStep (entry env) loc i) s () t := by
  obtain ⟨n, h⟩ := h
  exact ⟨n, fun cap hcap => rowStep_ok.mpr (h cap hcap)⟩

theorem settles_rows {entry : DecEnv → Dec ℤ} {loc : DnsLocation} {n : ℕ}
    (h : Settles pkt (fun env => loop (rowStep (entry env) loc) 0 n) s () t) :
    Settles pkt (fun env => rows (entry env) loc n) s 0 t := by
  obtain ⟨k, h⟩ := h
  exact ⟨k, fun cap hcap => rows_of_loop (h cap hcap)⟩

theorem settles_orReturn {x : DecEnv → Dec ℤ} (h : Settles pkt x s 0 t) :
    Settles pkt (fun env => orReturn (x env)) s () t := by
  obtain ⟨n, h⟩ := h
  exact ⟨n, fun cap hcap => orReturn_ok.mpr (h cap hcap)⟩

end Settles

theorem question_settles {pkt : Bytes} {q : DnsQd Bytes} {fin : ℕ} {s : DecState}
    (h : QuestionAt pkt s.dec.offset q fin) (hle : q.qname.length ≤ 253) :
    ∃ t, Settles pkt dnsQdDecode s 0 t ∧ t.dec.offset = fin ∧ t.dec.errs = s.dec.errs ∧
      t.msg = s.msg := by
  obtain ⟨e, hn, rfl, hfit, -⟩ := h
  have hroom : q.qname.length+1 ≤ 1124 := by omega
  have hshow : Shows (moveTo (put s 0 (q.qname ++ [0])) (e+4)) 0 q.qname :=
    shows_put s (show 0+q.qname.length+1 ≤ 1124 by omega)
  refine ⟨told (moveTo (put s 0 (q.qname ++ [0])) (e+4))
    (qdLine (cstr q.qname) (qdAt pkt e).1 (qdAt pkt e).2),
      settles_call (settles_line fun cap => ?_),
    rfl, put_errs s 0 _, put_msg s 0 _⟩
  have hslot : qdSlot (validateEnv pkt cap) s = .ok () s := rfl
  have hname := qdName_run (validateEnv pkt cap) hn hroom
  have hfixed : qdFixed (validateEnv pkt cap) (moveTo (put s 0 (q.qname ++ [0])) e) =
      .ok (qdAt pkt e) (moveTo (put s 0 (q.qname ++ [0])) (e+4)) := qdFixed_run hfit
  rw [qdBody, bind_of_ok hslot, bind_of_ok hname, bind_of_ok hfixed]
  exact bind_of_ok hshow.msgStr _

section Rdata

variable {pkt : Bytes} {w start : ℕ} (rc : ℤ) (s : DecState)

theorem describeIp_runs (hin : start+4 ≤ pkt.length) (hw : w ≤ 1124) :
    ∃ out t, (∀ cap, describeIp (validateEnv pkt cap) start w rc s = .ok out t) ∧
      t.dec.offset = s.dec.offset := by
  by_cases hroom : sizeLeft w < ip4AddrStrlen
  · refine ⟨⟨rc, .unknown, false⟩, s, fun cap => ?_, rfl⟩
    have he : (validateEnv pkt cap).needEmsg = true := rfl
    rw [describeIp, if_pos he, if_pos hroom]
    rfl
  · have hlen := ip4Str_length_le (slice pkt start 4)
    rw [sizeLeft_of_le hw, show ip4AddrStrlen = 16 from rfl,
      show (dnsMsgSize : ℕ) = 1124 from rfl] at hroom
    refine ⟨⟨rc, .scratch w, false⟩, put s w (ip4Str (slice pkt start 4) ++ [0]), fun cap => ?_,
      put_offset s w _⟩
    have hread : readBytes (validateEnv pkt cap) start 4 s = .ok (slice pkt start 4) s :=
      readBytes_run _ (.inr hin) s
    have hput : putMsg w (ip4Str (slice pkt start 4) ++ [0]) s =
        .ok () (put s w (ip4Str (slice pkt start 4) ++ [0])) :=
      putMsg_run (show _ ≤ 1124 by simp; omega) s
    have he : (validateEnv pkt cap).needEmsg = true := rfl
    rw [describeIp, if_pos he, if_neg (by rw [sizeLeft_of_le hw]; exact hroom), bind_of_ok hread,
      bind_of_ok hput]
    rfl

theorem rdataA_runs {sc : Sect} {h : RrHdr} (hlen : h.rdlen.toNat = 4)
    (hin : start+4 ≤ pkt.length) (hw : w ≤ 1124) :
    ∃ out t, (∀ cap, rdataA (validateEnv pkt cap) sc h w start rc s = .ok out t) ∧
      t.dec.offset = s.dec.offset+4 := by
  obtain ⟨out, t, hrun, hoff⟩ := describeIp_runs rc (moveTo s (s.dec.offset+4)) hin hw
  refine ⟨out, t, fun cap => ?_, hoff⟩
  rw [rdataA, bind_when_neg (by simp [hlen])]
  exact hrun cap

theorem rdataAaaa_runs {sc : Sect} {h : RrHdr} (hlen : h.rdlen.toNat = 16)
    (hin : start+4 ≤ pkt.length) (hw : w ≤ 1124) :
    ∃ out t, (∀ cap, rdataAaaa (validateEnv pkt cap) sc h w start rc s = .ok out t) ∧
      t.dec.offset = s.dec.offset+16 := by
  obtain ⟨out, t, hrun, hoff⟩ := describeIp_runs rc (moveTo s (s.dec.offset+16)) hin hw
  refine ⟨out, t, fun cap => ?_, hoff⟩
  rw [rdataAaaa, bind_when_neg (by simp [hlen])]
  exact hrun cap

variable {s} in
theorem rdataName_runs (sc : Sect) (field : DnsLocation) (f : ℕ → Ptr → Rdata Ptr → Rdata Ptr)
    {text : Bytes} {e : ℕ} (hn : NameAt pkt s.dec.offset text e)
    (hw : w+(shown text).length+1 ≤ 1124) :
    ∃ out t, (∀ cap, rdataName (validateEnv pkt cap) sc field f w s = .ok out t) ∧
      t.dec.offset = e := by
  refine ⟨⟨(shown text).length, .scratch w, false⟩, moveTo (put s w (shown text ++ [0])) e,
    fun cap => ?_, rfl⟩
  rw [rdataName, bind_of_ok (nameField_run (validateEnv pkt cap) field hn hw)]
  rfl

variable (pkt) in
theorem describeVals_runs (vals : List (String × UInt32))
    (hlen : ∀ v ∈ vals, (valText v).length ≤ 19)
    (hw : w+19*vals.length ≤ 1124) :
    ∃ p t, (∀ cap, describeVals (validateEnv pkt cap) vals w rc s = .ok p t) ∧
      t.dec.offset = s.dec.offset := by
  induction vals generalizing w rc s with
  | nil => exact ⟨(w, rc), s, fun _ => rfl, rfl⟩
  | cons v rest ih =>
    have hv := hlen v (by simp)
    rw [List.length_cons] at hw
    obtain ⟨p, t, hrun, hoff⟩ := ih (valText v).length (put s w (cut w (valText v)))
      (fun u hu => hlen u (by simp [hu])) (show w+(valText v).length+19*rest.length ≤ 1124 by omega)
    refine ⟨p, t, fun cap => ?_, hoff.trans (put_offset s w _)⟩
    have hdesc : describe (validateEnv pkt cap) w rc (valText v) s =
        .ok (w+(valText v).length, (valText v).length) (put s w (cut w (valText v))) :=
      describe_run rfl (show w ≤ 1124 by omega) rc _ s
    exact (bind_of_ok hdesc _).trans (hrun cap)

variable {s} in
theorem rdataSoa_runs (sc : Sect) {t1 t2 : Bytes} {e1 e2 : ℕ}
    (h1 : NameAt pkt s.dec.offset t1 e1) (h2 : NameAt pkt e1 t2 e2) (hin : e2+20 ≤ pkt.length)
    (hw : w+(shown t1).length+(shown t2).length+120 ≤ 1124) :
    ∃ out t, (∀ cap, rdataSoa (validateEnv pkt cap) sc w (e2+20) rc s = .ok out t) ∧
      t.dec.offset = e2+20 := by
  let w1 := w+6
  let w2 := w1+(shown t1).length+7
  let s1 := put s w (cut w (ascii "MNAME="))
  let s2 := moveTo (put s1 w1 (shown t1 ++ [0])) e1
  let s3 := put s2 (w1+(shown t1).length) (cut (w1+(shown t1).length) (ascii " RNAME="))
  let s4 := moveTo (put s3 w2 (shown t2 ++ [0])) e2
  have hoff1 : s1.dec.offset = s.dec.offset := put_offset s w _
  have hoff3 : s3.dec.offset = e1 := put_offset s2 _ _
  have hfit : w2+(shown t2).length+19*(soaVals (slice pkt e2 20)).length ≤ 1124 := by
    simp only [w2, w1, soaVals, List.length_cons, List.length_nil]
    omega
  obtain ⟨p, t, hvals, hoff⟩ := describeVals_runs pkt (shown t2).length
    (moveTo s4 (e2+20)) (soaVals (slice pkt e2 20)) (valText_length_le _) hfit
  refine ⟨⟨p.2, .scratch w, false⟩, t, fun cap => ?_, hoff⟩
  have hd1 : describe (validateEnv pkt cap) w rc (ascii "MNAME=") s = .ok (w1, 6) s1 :=
    describe_run rfl (show w ≤ 1124 by omega) rc _ s
  have hn1 : nameField (validateEnv pkt cap) .soa w1 s1 = .ok (shown t1).length s2 :=
    nameField_run _ .soa (by rw [hoff1]; exact h1) (show w+6+_+1 ≤ 1124 by omega)
  have hd2 : describe (validateEnv pkt cap) (w1+(shown t1).length) rc (ascii " RNAME=") s2 =
      .ok (w2, 7) s3 := describe_run rfl (show w+6+_ ≤ 1124 by omega) rc _ s2
  have hn2 : nameField (validateEnv pkt cap) .soa w2 s3 = .ok (shown t2).length s4 :=
    nameField_run _ .soa (by rw [hoff3]; exact h2) (show w+6+_+7+_+1 ≤ 1124 by omega)
  have hread : readBytes (validateEnv pkt cap) s4.dec.offset 20 s4 = .ok (slice pkt e2 20) s4 :=
    readBytes_run _ (.inr hin) s4
  unfold rdataSoa
  rw [bind_of_ok hd1]
  dsimp only
  rw [bind_of_ok hn1, bind_of_ok (loadName_validate rfl sc _ _ _), bind_of_ok hd2]
  dsimp only
  rw [bind_of_ok hn2, bind_of_ok (skip_load rfl s4), bind_of_ok (getOffset_run s4),
    bind_when_neg (by simp [s4]), bind_of_ok hread, bind_of_ok (advance_run _ _)]
  exact bind_of_ok (hvals cap) _

end Rdata

/-- The types whose RDATA is an address or made of names. -/
def Plain : RrKind → Prop
  | .a | .ns | .cname | .soa | .ptr | .aaaa => True
  | _ => False

theorem rrRdata_runs {pkt : Bytes} (sc : Sect) {h : RrHdr} {w fin : ℕ} (rc : ℤ) {s : DecState}
    {v : RdView} (hk : Plain (rrKind h.rrType)) (hv : RdataAt pkt h s.dec.offset fin v)
    (hrd : fin = s.dec.offset+h.rdlen.toNat) (hin : fin ≤ pkt.length)
    (hstrs : ∀ x ∈ v.strs, x.length ≤ 253) (hw : w ≤ 254) :
    ∃ out t, (∀ cap, rrRdata (validateEnv pkt cap) sc h w s.dec.offset fin rc s = .ok out t) ∧
      t.dec.offset = fin := by
  unfold RdataAt at hv
  unfold rrRdata
  cases hkind : rrKind h.rrType with
  | a =>
    simp only [hkind] at hv ⊢
    obtain ⟨rfl, -⟩ := hv
    exact rdataA_runs rc s (by omega) hin (by omega)
  | aaaa =>
    simp only [hkind] at hv ⊢
    obtain ⟨rfl, -⟩ := hv
    exact rdataAaaa_runs rc s (by omega) (by omega) (by omega)
  | ns | cname | ptr =>
    simp only [hkind] at hv ⊢
    obtain ⟨text, hn, rfl⟩ := hv
    have hle := hstrs (shown text) (by simp [RdView.strs])
    exact rdataName_runs sc _ _ hn (by omega)
  | soa =>
    simp only [hkind] at hv ⊢
    obtain ⟨t1, e1, t2, e2, h1, h2, rfl, rfl⟩ := hv
    have hle1 := hstrs (shown t1) (by simp [RdView.strs, soaView])
    have hle2 := hstrs (shown t2) (by simp [RdView.strs, soaView])
    exact rdataSoa_runs rc sc h1 h2 hin (by omega)
  | hinfo | mx | txt | srv | opt | any | other =>
    rw [hkind] at hk
    exact hk.elim

theorem nameText_runs (out : RdataOut) {t : DecState} {name : Bytes} (h : Shows t 0 name) :
    ∃ b, nameText out t = .ok b t := by
  unfold nameText
  split
  · exact ⟨_, rfl⟩
  · exact ⟨_, h.msgStr⟩

theorem descText_runs {desc : Desc} {t : DecState} (h : ∀ w, desc = .scratch w → Ends t w) :
    ∃ b, descText desc t = .ok b t := by
  cases desc with
  | empty => exact ⟨_, rfl⟩
  | unknown => exact ⟨_, rfl⟩
  | scratch w => exact ⟨_, msgStr_run (h w rfl)⟩

theorem entry_of_record {pkt : Bytes} {cap : ℕ} (sc : Sect) {s : DecState} {text : Bytes} {e : ℕ}
    (hn : NameAt pkt s.dec.offset text e) (hle : (shown text).length ≤ 253)
    (hhdr : e+10 ≤ pkt.length) (hin : rdataEnd pkt e ≤ pkt.length) :
    Entry (validateEnv pkt cap) sc s text e where
  slot h := by cases h
  name := hn
  room := show _+1 ≤ 1124 by omega
  stored h := by cases h
  hdr := hhdr
  rdata := (Nat.mod_le _ _).trans hin

/-- A record of a plain type with short names is reported and returns zero. -/
theorem record_settles {pkt : Bytes} (sc : Sect) {v : RrView} {fin : ℕ} {s : DecState}
    (h : RecordAt pkt s.dec.offset v fin) (hfin : fin < 2^16) (hk : Plain (rrKind v.rrType))
    (hname : v.name.length ≤ 253) (hstrs : ∀ x ∈ v.rdata.strs, x.length ≤ 253) :
    ∃ t, Settles pkt (fun env => dnsRrDecode env sc) s 0 t ∧ t.dec.offset = fin ∧
      t.dec.errs = s.dec.errs ∧ t.msg.hdr = s.msg.hdr := by
  obtain ⟨text, e, rd, hn, hhdr, rfl, hin, hrd, rfl⟩ := h
  have hle : (shown text).length ≤ 253 := hname
  have hentry (cap : ℕ) : Entry (validateEnv pkt cap) sc s text e :=
    entry_of_record sc hn hle hhdr hin
  have hend : rdEndAt pkt e = rdataEnd pkt e := Nat.mod_eq_of_lt hfin
  let s1 := entered (validateEnv pkt 0) sc s text e
  have hshow : Shows s1 0 (shown text) := entered_shows _ sc s text e (hentry 0).room
  obtain ⟨out, t, hrun, hoff⟩ := rrRdata_runs (w := (shown text).length+1) sc
    (shown text).length (s := s1) hk hrd rfl hin hstrs (by omega)
  have hfront := (keeps_rrRdata (frontFrame_allows ((shown text).length+1)).toAllowsFill
    (validateEnv pkt 0) sc
    (hdrAt pkt e) le_rfl _ _ _ fun _ _ => rfl).ok (hrun 0)
  have hterm : Terminated out t ((shown text).length+1) :=
    rrRdata_terminated rfl rfl (hentry 0).room hin
      (by intro ht; simp only [wireView] at hk; rw [ht] at hk; exact hk)
      (by intro ht; simp only [wireView] at hk; rw [ht] at hk; exact hk) (hrun 0)
  obtain ⟨name, hnt⟩ := nameText_runs out (shows_of_front hshow hfront)
  obtain ⟨desc, hdt⟩ := descText_runs fun w hw => by
    obtain ⟨rfl, hends⟩ := hterm w hw
    exact hends
  have hbody : Settles pkt (fun env => rrBody env sc) s 0
      (told t (rrLine sc (hdrAt pkt e) name desc)) := by
    refine settles_line fun cap => ?_
    rw [rrBody_entered (hentry cap)]
    change rrTail (validateEnv pkt cap) sc (hdrAt pkt e) (shown text).length s1.dec.offset
      (rdEndAt pkt e) s1 = _
    rw [rrTail, hend, bind_of_ok (hrun cap), bind_of_ok (getOffset_run t),
      bind_when_neg (by simp [hoff])]
    exact (bind_of_ok hnt _).trans (bind_of_ok hdt _)
  obtain ⟨need, hneed⟩ := hbody
  obtain ⟨herrs, hhdr'⟩ := (rrBody_errs (validateEnv pkt need) sc).ok (hneed need le_rfl)
  exact ⟨_, settles_call ⟨need, hneed⟩, hoff, herrs, hhdr'⟩

end DnsPkt.ReportedRecord
