import DnsPkt.LoadedMessage
import DnsPkt.ReportedAddress

/-!
# The report of the entries of a packet

A packet holds questions and records one behind another. If the records are of
the address and name types and all names are short, then the report of the packet
is its header line, one line for each entry in the order of the sections and
the line about the size. Each line is told by what the entry holds.
-/

set_option autoImplicit false

namespace DnsPkt.EntryReport
open DnsPkt.CheckedRun.Run DnsPkt.Octets DnsPkt.Protocol
open DnsPkt.MessageStore DnsPkt.ReportText DnsPkt.RecordDecoder DnsPkt.MessageDecoder
open DnsPkt.RecordRun DnsPkt.RecordFrame DnsPkt.RecordEntry DnsPkt.MessageRun
open DnsPkt.AcceptedRun DnsPkt.ScratchBounds DnsPkt.ScratchText DnsPkt.RecordView
open DnsPkt.ReportedRecord DnsPkt.MessageParts DnsPkt.FullReport DnsPkt.ReportedAddress
open DnsPkt.LoadedMessage

def descOf : RdView → Bytes
  | .a addr => ip4Str addr.toList
  | .aaaa addr => ip4Str addr.toList
  | .name name => name
  | .soa mname rname serial refresh retry expire minTtl =>
    ascii "MNAME=" ++ mname ++ ascii " RNAME=" ++ rname ++
      ([("serial", serial), ("refresh", refresh), ("retry", retry), ("expire", expire),
        ("min_ttl", minTtl)].flatMap valText)
  | _ => []

def recordText (sc : Sect) (v : RrView) : Bytes :=
  rrLine sc ⟨v.rrType, v.rrClass, v.ttl, 0⟩ (cstr v.name) (cstr (descOf v.rdata))

structure PlainView (v : RrView) : Prop where
  kind : Plain (rrKind v.rrType)
  name : v.name.length ≤ 253
  strs : ∀ x ∈ v.rdata.strs, x.length ≤ 253

section Rdata

variable {pkt : Bytes} {w : ℕ} {rc : ℤ} {s t : DecState} {out : RdataOut}

theorem ip4Str_congr {a b : Bytes} (h : ∀ i < 4, a.getD i 0 = b.getD i 0) :
    ip4Str a = ip4Str b := by
  rw [ip4Str, ip4Str, h 0 (by decide), h 1 (by decide), h 2 (by decide), h 3 (by decide)]

theorem getD_toVector (b : Bytes) {n i : ℕ} (h : i < n) :
    (toVector n b).toList.getD i 0 = b.getD i 0 := by
  simp [toVector, List.getD_eq_getElem?_getD, h]

theorem ip4Str_toVector (start : ℕ) {n : ℕ} (hn : 4 ≤ n) :
    ip4Str (toVector n (slice pkt start n)).toList = ip4Str (slice pkt start 4) := by
  refine ip4Str_congr fun i hi => ?_
  rw [getD_toVector _ (by omega)]
  simp only [slice, List.getD_eq_getElem?_getD, List.getElem?_take]
  rw [if_pos (by omega), if_pos hi]

/-- A text that goes on where another one ends. -/
theorem shows_append {a b : Bytes} (hs : Shows s w a) (hw : w+a.length+b.length+1 ≤ dnsMsgSize) :
    Shows (put s (w+a.length) (b ++ [0])) w (a ++ b) := by
  have hsize := s.dec.msg_size
  have hlen : (b ++ [0]).length = b.length+1 := List.length_append
  have hfront : slice s.dec.msg w a.length = a := by
    have hpart := slice_slice s.dec.msg w (show 0+a.length ≤ a.length+1 by omega)
    rw [show slice s.dec.msg w (a.length+1) = a ++ [0] from hs, Nat.add_zero] at hpart
    rw [← hpart, slice, List.drop_zero, List.take_left' rfl]
  have hjoin (c : Bytes) (n : ℕ) :
      slice c w (a.length+n) = slice c w a.length ++ slice c (w+a.length) n := by
    rw [slice, slice, slice, List.take_add, List.drop_drop]
  rw [Shows, put_scratch _ _ _ (by omega), List.length_append, Nat.add_assoc, hjoin,
    slice_patch_before _ _ _ _ _ (le_refl _) (by omega), hfront, ← hlen,
    slice_patch_at _ _ _ (by omega), List.append_assoc]

theorem cut_all {text : Bytes} (h : w+text.length+1 ≤ dnsMsgSize) : cut w text = text ++ [0] := by
  rw [cut, if_neg (by omega), List.take_of_length_le (by omega)]

variable (pkt) (rc) in
/-- A text is described behind another one. -/
theorem describe_shows {a text : Bytes} (hs : Shows s w a)
    (hw : w+a.length+text.length+1 ≤ dnsMsgSize) : ∃ t,
    describe (validateEnv pkt 0) (w+a.length) rc text s =
      .ok (w+(a ++ text).length, text.length) t ∧ Shows t w (a ++ text) ∧
      t.dec.offset = s.dec.offset := by
  refine ⟨put s (w+a.length) (cut (w+a.length) text), ?_, ?_, put_offset s _ _⟩
  · rw [describe_run rfl (show w+a.length ≤ dnsMsgSize by omega), List.length_append,
      Nat.add_assoc]
  · rw [cut_all (by omega)]
    exact shows_append hs hw

/-- A name is decoded behind a text. -/
theorem nameField_shows (field : DnsLocation) {a text : Bytes} {e : ℕ} (hs : Shows s w a)
    (hn : NameAt pkt s.dec.offset text e) (hw : w+a.length+(shown text).length+1 ≤ dnsMsgSize) :
    ∃ t, nameField (validateEnv pkt 0) field (w+a.length) s = .ok (shown text).length t ∧
      Shows t w (a ++ shown text) ∧ t.dec.offset = e := by
  refine ⟨moveTo (put s (w+a.length) (shown text ++ [0])) e, ?_, ?_, rfl⟩
  · exact nameField_run (validateEnv pkt 0) field hn hw
  · rw [shows_moveTo]
    exact shows_append hs hw

variable (pkt) in
theorem describeVals_shows (rc : ℤ) (vals : List (String × UInt32)) {a : Bytes} (hs : Shows s w a)
    (hlen : ∀ v ∈ vals, (valText v).length ≤ 19)
    (hw : w+a.length+19*vals.length+1 ≤ dnsMsgSize) : ∃ p t,
    describeVals (validateEnv pkt 0) vals (w+a.length) rc s = .ok p t ∧
      Shows t w (a ++ vals.flatMap valText) := by
  induction vals generalizing rc a s with
  | nil => exact ⟨_, s, rfl, by rwa [List.flatMap_nil, List.append_nil]⟩
  | cons v rest ih =>
    have hv := hlen v List.mem_cons_self
    rw [List.length_cons] at hw
    obtain ⟨m, hdesc, hm, -⟩ := describe_shows pkt rc hs
      (show w+a.length+(valText v).length+1 ≤ dnsMsgSize by omega)
    obtain ⟨p, t, hrun, ht⟩ := ih (valText v).length hm
      (fun u hu => hlen u (List.mem_cons_of_mem v hu)) (by rw [List.length_append]; omega)
    refine ⟨p, t, (bind_of_ok hdesc _).trans hrun, ?_⟩
    rw [List.flatMap_cons, ← List.append_assoc]
    exact ht

variable (pkt) (rc) (s) in
/-- Nothing stands at a position yet. -/
theorem describe_first {text : Bytes} (hw : w+text.length+1 ≤ dnsMsgSize) : ∃ t,
    describe (validateEnv pkt 0) w rc text s = .ok (w+text.length, text.length) t ∧
      Shows t w text ∧ t.dec.offset = s.dec.offset := by
  refine ⟨put s w (cut w text), describe_run rfl (show w ≤ dnsMsgSize by omega) rc _ s, ?_,
    put_offset s _ _⟩
  rw [cut_all hw]
  exact shows_put s hw

variable (rc) in
theorem rdataSoa_shows (sc : Sect) {t1 t2 : Bytes} {e1 e2 : ℕ}
    (h1 : NameAt pkt s.dec.offset t1 e1) (h2 : NameAt pkt e1 t2 e2) (hin : e2+20 ≤ pkt.length)
    (hw : w+(shown t1).length+(shown t2).length+120 ≤ dnsMsgSize) : ∃ rc' t,
    rdataSoa (validateEnv pkt 0) sc w (e2+20) rc s = .ok ⟨rc', .scratch w, false⟩ t ∧
      Shows t w (descOf (soaView (shown t1) (shown t2) (slice pkt e2 20))) := by
  have hm : (ascii "MNAME=").length = 6 := rfl
  have hr : (ascii " RNAME=").length = 7 := rfl
  obtain ⟨s1, hd1, hs1, hoff1⟩ := describe_first pkt rc s
    (show w+(ascii "MNAME=").length+1 ≤ dnsMsgSize by omega)
  obtain ⟨s2, hn1, hs2, hoff2⟩ := nameField_shows .soa hs1 (hoff1 ▸ h1)
    (show w+(ascii "MNAME=").length+(shown t1).length+1 ≤ dnsMsgSize by omega)
  obtain ⟨s3, hd2, hs3, hoff3⟩ := describe_shows pkt rc hs2
    (show w+(ascii "MNAME=" ++ shown t1).length+(ascii " RNAME=").length+1 ≤ dnsMsgSize by
      rw [List.length_append]; omega)
  obtain ⟨s4, hn2, hs4, hoff4⟩ := nameField_shows .soa hs3 (hoff3.trans hoff2 ▸ h2)
    (show w+(ascii "MNAME=" ++ shown t1 ++ ascii " RNAME=").length+(shown t2).length+1 ≤
      dnsMsgSize by rw [List.length_append, List.length_append]; omega)
  obtain ⟨p, t, hvals, ht⟩ := describeVals_shows pkt (shown t2).length (soaVals (slice pkt e2 20))
    (s := moveTo s4 (e2+20)) hs4 (valText_length_le _) (by
      simp only [soaVals, List.length_append, List.length_cons, List.length_nil]
      omega)
  refine ⟨p.2, t, ?_, ht⟩
  have hread : readBytes (validateEnv pkt 0) s4.dec.offset 20 s4 = .ok (slice pkt e2 20) s4 := by
    rw [hoff4]
    exact readBytes_run (validateEnv pkt 0) (.inr hin) s4
  have hmove : advance 20 s4 = .ok () (moveTo s4 (e2+20)) := by
    rw [← hoff4]
    exact advance_run _ _
  have hjoin (a b : Bytes) : w+a.length+b.length = w+(a ++ b).length := by
    rw [List.length_append, Nat.add_assoc]
  unfold rdataSoa
  rw [bind_of_ok hd1]
  dsimp only
  rw [bind_of_ok hn1, bind_of_ok (loadName_validate rfl sc _ _ _)]
  rw [hjoin, bind_of_ok hd2]
  dsimp only
  rw [bind_of_ok hn2, bind_of_ok (skip_load rfl s4), bind_of_ok (getOffset_run s4),
    bind_when_neg (by rw [hoff4]; exact lt_irrefl _), bind_of_ok hread, bind_of_ok hmove]
  rw [hjoin]
  exact (bind_of_ok hvals _).trans rfl

/-- What RDATA of a plain type is described as. -/
theorem rrRdata_text {sc : Sect} {h : RrHdr} {fin : ℕ} {rd : RdView} (hk : Plain (rrKind h.rrType))
    (hv : RdataAt pkt h s.dec.offset fin rd) (hin : fin ≤ pkt.length)
    (hstrs : ∀ x ∈ rd.strs, x.length ≤ 253) (hw : w ≤ 254)
    (hrun : rrRdata (validateEnv pkt 0) sc h w s.dec.offset fin rc s = .ok out t) :
    out.root = false ∧ descText out.desc t = .ok (cstr (descOf rd)) t := by
  have hsize : (dnsMsgSize : ℕ) = 1124 := rfl
  have haddress (haddr : IsAddress h) (hdesc : ip4Str (slice pkt s.dec.offset 4) = descOf rd) :
      out.root = false ∧ descText out.desc t = .ok (cstr (descOf rd)) t := by
    obtain ⟨m, hm⟩ := rrRdata_describes rfl haddr hrun
    obtain ⟨hroot, htext, -⟩ := describeIp_desc (show w ≤ dnsMsgSize by omega) hm
    have hroom : ¬ sizeLeft w < ip4AddrStrlen := by
      rw [sizeLeft_of_le (show w ≤ dnsMsgSize by omega), show ip4AddrStrlen = 16 from rfl]
      omega
    rw [if_neg hroom] at htext
    rw [← hdesc, cstr_of_no_zero _ (ip4Str_not_mem (by decide) (by decide))]
    exact ⟨hroot, htext⟩
  have hname {field : DnsLocation} {f : ℕ → Ptr → Rdata Ptr → Rdata Ptr} {text : Bytes}
      (hn : NameAt pkt s.dec.offset text fin) (hrd : rd = .name (shown text))
      (hdata : rdataName (validateEnv pkt 0) sc field f w s = .ok out t) :
      out.root = false ∧ descText out.desc t = .ok (cstr (descOf rd)) t := by
    have hle := hstrs (shown text) (by rw [hrd]; exact List.mem_singleton_self _)
    have hfit : w+(shown text).length+1 ≤ dnsMsgSize := by omega
    rw [rdataName, bind_of_ok (nameField_run (validateEnv pkt 0) field hn hfit),
      bind_of_ok (loadName_validate rfl sc _ _ _)] at hdata
    cases hdata
    rw [hrd]
    exact ⟨rfl, ((shows_moveTo _ fin w _).mpr (shows_put s hfit)).msgStr⟩
  unfold RdataAt at hv
  unfold rrRdata at hrun
  cases hkind : rrKind h.rrType with
  | a =>
    simp only [hkind] at hv
    rw [hv.2] at haddress ⊢
    exact haddress (.inl hkind) (ip4Str_toVector _ le_rfl).symm
  | aaaa =>
    simp only [hkind] at hv
    rw [hv.2] at haddress ⊢
    exact haddress (.inr hkind) (ip4Str_toVector _ (by decide)).symm
  | ns | cname | ptr =>
    simp only [hkind] at hv hrun
    obtain ⟨text, hn, hrd⟩ := hv
    exact hname hn hrd hrun
  | soa =>
    simp only [hkind] at hv hrun
    obtain ⟨t1, e1, t2, e2, h1, h2, rfl, hrd⟩ := hv
    have hle1 := hstrs (shown t1) (by rw [hrd]; simp [RdView.strs, soaView])
    have hle2 := hstrs (shown t2) (by rw [hrd]; simp [RdView.strs, soaView])
    obtain ⟨rc', u, hsoa, hshow⟩ := rdataSoa_shows rc sc h1 h2 hin
      (show w+_+_+120 ≤ dnsMsgSize by omega)
    rw [hsoa] at hrun
    cases hrun
    rw [hrd]
    exact ⟨rfl, hshow.msgStr⟩
  | hinfo | mx | txt | srv | opt | any | other =>
    rw [hkind] at hk
    exact hk.elim

end Rdata

structure Told (s t : DecState) (fin : ℕ) (text : Bytes) : Prop where
  offset : t.dec.offset = fin
  errs : t.dec.errs = s.dec.errs
  hdr : t.msg.hdr = s.msg.hdr
  udpSize : t.dec.udpSize = s.dec.udpSize
  text : t.dec.emsg.text = s.dec.emsg.text ++ text
  tail : s.dec.emsg.tail = [] → t.dec.emsg.tail = []

def restFrame : Frame DecState ℤ Fault where
  keep s t := t.dec.emsg = s.dec.emsg ∧ t.dec.errs = s.dec.errs ∧ t.msg.hdr = s.msg.hdr ∧
    t.dec.udpSize = s.dec.udpSize
  leave _ _ _ := True
  raise _ := True
  refl _ := ⟨rfl, rfl, rfl, rfl⟩
  trans h1 h2 := ⟨h2.1.trans h1.1, h2.2.1.trans h1.2.1, h2.2.2.1.trans h1.2.2.1,
    h2.2.2.2.trans h1.2.2.2⟩
  lift _ _ := trivial

theorem restFrame_allows : AllowsFill 0 restFrame where
  put s w b _ := ⟨put_emsg s w b, put_errs s w b, by rw [put_msg], put_udpSize s w b⟩
  move _ _ _ := ⟨rfl, rfl, rfl, rfl⟩
  load _ _ h := ⟨rfl, rfl, h.hdr, rfl⟩
  err _ _ _ _ := trivial
  fail _ := trivial
  reads _ := trivial
  writes _ := trivial
  strings _ := trivial

section Told

variable {pkt : Bytes} {s t u : DecState}

theorem Told.refl (s : DecState) : Told s s s.dec.offset [] :=
  ⟨rfl, rfl, rfl, rfl, (List.append_nil _).symm, id⟩

theorem Told.trans {e fin : ℕ} {a b : Bytes} (h : Told s t e a) (h' : Told t u fin b) :
    Told s u fin (a ++ b) where
  offset := h'.offset
  errs := h'.errs.trans h.errs
  hdr := h'.hdr.trans h.hdr
  udpSize := h'.udpSize.trans h.udpSize
  text := by rw [h'.text, h.text, List.append_assoc]
  tail := h'.tail ∘ h.tail

/-- An entry whose body comes down to the line that it appends. -/
theorem tell_of_wmsg {p : Part} {line : Bytes}
    (h : ∀ cap, p.body (validateEnv pkt cap) s = dnsWmsg (validateEnv pkt cap) line t) :
    tellEntry pkt p s = .ok () (told t line) := by
  refine (@tell_of_body pkt (t.dec.emsg.text.length+line.length+1) p s _ ?_).1
  rw [h]
  exact dnsWmsg_fits le_rfl

/-- A record of a plain type leaves its line. -/
theorem record_told (sc : Sect) {v : RrView} {fin : ℕ} (h : RecordAt pkt s.dec.offset v fin)
    (hfin : fin < 2^16) (hv : PlainView v) :
    ∃ t, tellEntry pkt (.records sc) s = .ok () t ∧ Told s t fin (recordText sc v) := by
  obtain ⟨hk, hname, hstrs⟩ := hv
  obtain ⟨text, e, rd, hn, hhdr, rfl, hin, hrd, rfl⟩ := h
  have hle : (shown text).length ≤ 253 := hname
  have hentry (cap : ℕ) : Entry (validateEnv pkt cap) sc s text e :=
    entry_of_record sc hn hle hhdr hin
  have hend : rdEndAt pkt e = rdataEnd pkt e := Nat.mod_eq_of_lt hfin
  let s1 := entered (validateEnv pkt 0) sc s text e
  have hshow : Shows s1 0 (shown text) := entered_shows _ sc s text e (hentry 0).room
  obtain ⟨out, t, hrun, hoff⟩ := rrRdata_runs (w := (shown text).length+1) sc
    (shown text).length (s := s1) hk hrd rfl hin hstrs (by omega)
  have hopt : rrKind (hdrAt pkt e).rrType ≠ .opt := by
    intro hopt
    simp only [wireView] at hk
    rw [hopt] at hk
    exact hk
  have hfront := (keeps_rrRdata (frontFrame_allows ((shown text).length+1)).toAllowsFill
    (validateEnv pkt 0) sc (hdrAt pkt e) le_rfl _ _ _ fun h => absurd h hopt).ok (hrun 0)
  obtain ⟨hemsg, herrs, hmsg, hudp⟩ := (keeps_rrRdata restFrame_allows (validateEnv pkt 0) sc
    (hdrAt pkt e) (Nat.zero_le _) _ _ _ fun h => absurd h hopt).ok (hrun 0)
  obtain ⟨hroot, hdesc⟩ := rrRdata_text hk hrd hin hstrs (by omega) (hrun 0)
  have hnt : nameText out t = .ok (cstr (shown text)) t := by
    rw [nameText, hroot]
    exact (shows_of_front hshow hfront).msgStr
  have hline : recordText sc (wireView text (hdrAt pkt e) rd) =
      rrLine sc (hdrAt pkt e) (cstr (shown text)) (cstr (descOf rd)) := by
    rw [recordText, wireView]
    simp only [if_neg hopt]
    rfl
  have hbody (cap : ℕ) : rrBody (validateEnv pkt cap) sc s = dnsWmsg (validateEnv pkt cap)
      (rrLine sc (hdrAt pkt e) (cstr (shown text)) (cstr (descOf rd))) t := by
    rw [rrBody_entered (hentry cap)]
    change rrTail (validateEnv pkt cap) sc (hdrAt pkt e) (shown text).length s1.dec.offset
      (rdEndAt pkt e) s1 = _
    rw [rrTail, hend, bind_of_ok (hrun cap), bind_of_ok (getOffset_run t),
      bind_when_neg (by simp [hoff]), bind_of_ok (skip_load rfl t)]
    exact (bind_of_ok hnt _).trans (bind_of_ok hdesc _)
  rw [hline]
  exact ⟨_, tell_of_wmsg (p := .records sc) hbody, hoff, herrs.trans (entered_errs _ sc s text e),
    hmsg, hudp.trans (put_udpSize s 0 _), congrArg (fun m => Emsg.text m ++ _)
      (hemsg.trans (entered_emsg _ sc s text e)), fun _ => rfl⟩

end Told

/-- The validator accepts the packet exactly when its report is shorter than the buffer, and
leaves nothing else in it. -/
structure Reports (pkt text : Bytes) : Prop where
  accepted : ∀ cap, (∃ t, dnsValidate pkt cap = .ok 0 t) ↔ text.length < cap
  emsg : ∀ cap t, dnsValidate pkt cap = .ok 0 t → t.dec.emsg = ⟨text, []⟩

end DnsPkt.EntryReport
