import DnsPkt.MessageDecoder

/-!
# What the statements of the record decoder do

Each primitive statement has one lemma for the run with a cursor inside the
scratch buffer and one for its undefined accesses. Later modules combine
these and do not unfold the statements again.
-/

set_option autoImplicit false

namespace DnsPkt.RecordRun
open DnsPkt.CheckedRun DnsPkt.CheckedRun.Run DnsPkt.Octets DnsPkt.Protocol DnsPkt.WireName
open DnsPkt.MessageStore DnsPkt.NameDecoder DnsPkt.ReportText DnsPkt.RecordDecoder

def put (s : DecState) (w : ℕ) (b : Bytes) : DecState :=
  if h : w+b.length ≤ dnsMsgSize then
    { s with
      dec.msg := patch s.dec.msg w b
      dec.msg_size := by rw [length_patch _ _ _ (by rw [s.dec.msg_size]; exact h), s.dec.msg_size] }
  else s

def moveTo (s : DecState) (off : ℕ) : DecState := { s with dec.offset := off }

section put

variable (s : DecState) (w : ℕ) (b : Bytes)

@[simp] theorem put_offset : (put s w b).dec.offset = s.dec.offset := by
  unfold put
  split <;> rfl

@[simp] theorem put_errs : (put s w b).dec.errs = s.dec.errs := by
  unfold put
  split <;> rfl

@[simp] theorem put_emsg : (put s w b).dec.emsg = s.dec.emsg := by
  unfold put
  split <;> rfl

@[simp] theorem put_udpSize : (put s w b).dec.udpSize = s.dec.udpSize := by
  unfold put
  split <;> rfl

@[simp] theorem put_msg : (put s w b).msg = s.msg := by
  unfold put
  split <;> rfl

theorem put_scratch (h : w+b.length ≤ dnsMsgSize) :
    (put s w b).dec.msg = patch s.dec.msg w b := by
  simp [put, h]

@[simp] theorem put_nil : put s w [] = s := by
  simp [put]

end put

@[simp] theorem moveTo_offset (s : DecState) (off : ℕ) : (moveTo s off).dec.offset = off := rfl

@[simp] theorem moveTo_errs (s : DecState) (off : ℕ) :
    (moveTo s off).dec.errs = s.dec.errs := rfl

@[simp] theorem moveTo_emsg (s : DecState) (off : ℕ) :
    (moveTo s off).dec.emsg = s.dec.emsg := rfl

@[simp] theorem moveTo_udpSize (s : DecState) (off : ℕ) :
    (moveTo s off).dec.udpSize = s.dec.udpSize := rfl

@[simp] theorem moveTo_scratch (s : DecState) (off : ℕ) :
    (moveTo s off).dec.msg = s.dec.msg := rfl

@[simp] theorem moveTo_msg (s : DecState) (off : ℕ) : (moveTo s off).msg = s.msg := rfl

theorem put_put (s : DecState) (w : ℕ) (b c : Bytes) (hbc : b.length ≤ c.length)
    (h : w+c.length ≤ dnsMsgSize) : put (put s w b) w c = put s w c := by
  have hs := s.dec.msg_size
  have hb : w+b.length ≤ dnsMsgSize := by omega
  have hp : patch (patch s.dec.msg w b) w c = patch s.dec.msg w c := by
    have hl : (s.dec.msg.take w).length = w := by simp; omega
    simp only [patch, List.append_assoc]
    rw [List.take_append_of_le_length (by omega), List.take_of_length_le (by omega),
      List.drop_append, List.drop_append, List.drop_of_length_le (by omega),
      List.drop_of_length_le (by omega), List.drop_drop]
    simp only [List.nil_append, hl]
    congr 3
    omega
  simp [put, h, hb, hp]

@[simp] theorem getOffset_run (s : DecState) : getOffset s = .ok s.dec.offset s := rfl

@[simp] theorem advance_run (n : ℕ) (s : DecState) :
    advance n s = .ok () (moveTo s (s.dec.offset+n)) := rfl

theorem readBytes_run (env : DecEnv) {i n : ℕ} (h : n = 0 ∨ i+n ≤ env.pkt.length) (s : DecState) :
    readBytes env i n s = .ok (slice env.pkt i n) s := by
  simp [readBytes, pktSlice, h]

theorem readBytes_over (env : DecEnv) {i n : ℕ} (h : ¬ (n = 0 ∨ i+n ≤ env.pkt.length))
    (s : DecState) : readBytes env i n s = .fault (.pktRead (max i env.pkt.length)) := by
  simp [readBytes, pktSlice, h]

theorem readBytes_ok {env : DecEnv} {i n : ℕ} {s t : DecState} {b : Bytes}
    (h : readBytes env i n s = .ok b t) :
    (n = 0 ∨ i+n ≤ env.pkt.length) ∧ b = slice env.pkt i n ∧ t = s := by
  by_cases hn : n = 0 ∨ i+n ≤ env.pkt.length
  · rw [readBytes_run env hn] at h
    cases h
    exact ⟨hn, rfl, rfl⟩
  · simp [readBytes, pktSlice, hn] at h

theorem putMsg_run {w : ℕ} {b : Bytes} (h : w+b.length ≤ dnsMsgSize) (s : DecState) :
    putMsg w b s = .ok () (put s w b) := by
  by_cases hb : b = []
  · simp [putMsg, hb]
  · simp [putMsg, hb, put, h]

theorem putMsg_over {w : ℕ} {b : Bytes} (hb : b ≠ []) (h : dnsMsgSize < w+b.length)
    (s : DecState) : putMsg w b s = .fault (.msgWrite (max w dnsMsgSize)) := by
  simp [putMsg, hb, show ¬ w+b.length ≤ dnsMsgSize by omega]

theorem putMsg_fault {w : ℕ} {b : Bytes} {s : DecState} {c : Fault}
    (h : putMsg w b s = .fault c) : ∃ i, c = .msgWrite i := by
  unfold putMsg at h
  split_ifs at h
  cases h
  exact ⟨_, rfl⟩

theorem sizeLeft_of_le {w : ℕ} (h : w ≤ dnsMsgSize) : sizeLeft w = dnsMsgSize-w := if_pos h

/-- What `snprintf` stores when the cursor is in the buffer. -/
def cut (w : ℕ) (text : Bytes) : Bytes :=
  if w = dnsMsgSize then [] else text.take (dnsMsgSize-w-1) ++ [0]

theorem cut_fits {w : ℕ} (h : w ≤ dnsMsgSize) (text : Bytes) :
    w+(cut w text).length ≤ dnsMsgSize := by
  unfold cut
  split
  · simpa using h
  · simp only [List.length_append, List.length_take, List.length_singleton]
    omega

theorem snprintf_run {w : ℕ} (h : w ≤ dnsMsgSize) (text : Bytes) (s : DecState) :
    snprintf w text s = .ok text.length (put s w (cut w text)) := by
  have hc : (if sizeLeft w = 0 then [] else text.take (sizeLeft w-1) ++ [0]) = cut w text := by
    rw [sizeLeft_of_le h, cut]
    by_cases hw : w = dnsMsgSize
    · simp [hw]
    · simp [hw, show dnsMsgSize-w ≠ 0 by omega]
  unfold snprintf
  rw [hc, bind_of_ok (putMsg_run (cut_fits h text) s)]
  rfl

theorem snprintf_over {w : ℕ} (h : dnsMsgSize < w) (hw : w ≤ 2^64) (text : Bytes)
    (s : DecState) : snprintf w text s = .fault (.msgWrite w) := by
  have hn : sizeLeft w ≠ 0 := by
    simp only [sizeLeft, show dnsMsgSize = 1124 from rfl] at h ⊢
    split_ifs <;> omega
  unfold snprintf
  simp only [hn, if_false]
  rw [bind_of_fault (putMsg_over (by simp) (by omega) s)]
  congr 2
  omega

theorem dnsAddStr_run {w : ℕ} {str : Bytes} (h : w+str.length+1 ≤ dnsMsgSize) (s : DecState) :
    dnsAddStr w str s = .ok str.length (put s w (str ++ [0])) := by
  have hl : ¬ sizeLeft w < str.length+1 := by
    rw [sizeLeft_of_le (by omega)]
    omega
  unfold dnsAddStr
  rw [when_neg hl, bind_of_ok (pure_run _ _), bind_of_ok (putMsg_run (by simp; omega) s)]
  rfl

theorem dnsAddStr_full {w : ℕ} {str : Bytes} (hw : w ≤ dnsMsgSize)
    (h : dnsMsgSize < w+str.length+1) (s : DecState) : dnsAddStr w str s = .exit (-1) s := by
  have hl : sizeLeft w < str.length+1 := by
    rw [sizeLeft_of_le hw]
    omega
  unfold dnsAddStr
  rw [when_pos hl, bind_of_exit (exit_run _ _)]

/-- The name at `off` as the decoder accepts it: its dotted text and its end. -/
def NameAt (pkt : Bytes) (off : ℕ) (text : Bytes) (e : ℕ) : Prop :=
  ∃ j ls, Reads 191 12 pkt off j ls text ∧ j ≤ dnsMaxJmp+1 ∧ nameEnd pkt off = some e

theorem NameAt.unique {pkt : Bytes} {off e e' : ℕ} {text text' : Bytes}
    (h : NameAt pkt off text e) (h' : NameAt pkt off text' e') : text = text' ∧ e = e' := by
  obtain ⟨j, ls, hr, -, he⟩ := h
  obtain ⟨j', ls', hr', -, he'⟩ := h'
  exact ⟨(hr.unique hr').2.2, Option.some.inj (he.symm.trans he')⟩

theorem NameAt.bounds {pkt : Bytes} {off e : ℕ} {text : Bytes} (h : NameAt pkt off text e) :
    off < e ∧ e ≤ pkt.length := by
  obtain ⟨j, ls, -, -, he⟩ := h
  exact nameEnd_bounds he

theorem NameAt.extend {a b : Bytes} (hp : a <+: b) {off e : ℕ} {text : Bytes}
    (h : NameAt a off text e) : NameAt b off text e := by
  obtain ⟨j, ls, hr, hj, he⟩ := h
  exact ⟨j, ls, hr.extend hp, hj, nameEnd_extend hp he⟩

def shown (text : Bytes) : Bytes := if text = [] then dnsNullStr else text

theorem shown_pos (text : Bytes) : 0 < (shown text).length := by
  unfold shown
  split
  · decide
  · exact List.length_pos_of_ne_nil ‹_›

theorem length_le_shown (text : Bytes) : text.length ≤ (shown text).length := by
  unfold shown
  split
  · simp_all
  · exact le_rfl

theorem decodeNameAt_run (env : DecEnv) {w : ℕ} (hw : w ≤ dnsMsgSize) (s : DecState) :
    ∃ r, decodeName env.pkt s.dec.offset (dnsMsgSize-w) = .ok r ∧ s.dec.offset ≤ r.offset ∧
      decodeNameAt env w s = .ok r.result (moveTo (put s w r.out) r.offset) := by
  obtain ⟨r, hr, hle, hout, -⟩ := decodeName_total env.pkt s.dec.offset (dnsMsgSize-w)
  refine ⟨r, hr, hle, ?_⟩
  simp only [decodeNameAt, sizeLeft_of_le hw, hr]
  rw [bind_of_ok (putMsg_run (by omega) s)]
  rfl

theorem fixLabel_run {text : Bytes} {w : ℕ} (h : w+(shown text).length+1 ≤ dnsMsgSize)
    (s : DecState) (e : ℕ) :
    fixLabel (text.length+1) w (moveTo (put s w (text ++ [0])) e) =
      .ok (shown text).length (moveTo (put s w (shown text ++ [0])) e) := by
  by_cases ht : text = []
  · have hl : (shown text).length = dnsNullStr.length := by simp [shown, ht]
    have hm : put (moveTo (put s w [0]) e) w (dnsNullStr ++ [0]) =
        moveTo (put s w (dnsNullStr ++ [0])) e := by
      rw [← put_put s w [0] (dnsNullStr ++ [0]) (by decide) (by simp; omega)]
      simp only [put, moveTo]
      split_ifs <;> rfl
    simp only [fixLabel, ht, List.length_nil, List.nil_append, ne_eq, not_true, if_false, shown,
      if_true, Nat.zero_add]
    rw [dnsAddStr_run (by omega), hm]
  · have hl : 0 < text.length := List.length_pos_of_ne_nil ht
    simp only [fixLabel, shown, ht, if_false]
    rw [if_pos (by omega)]
    rfl

theorem nameField_run (env : DecEnv) (field : DnsLocation) {w e : ℕ} {text : Bytes}
    {s : DecState} (hn : NameAt env.pkt s.dec.offset text e)
    (hw : w+(shown text).length+1 ≤ dnsMsgSize) :
    nameField env field w s =
      .ok (shown text).length (moveTo (put s w (shown text ++ [0])) e) := by
  obtain ⟨j, ls, hr, hj, he⟩ := hn
  have hlt := length_le_shown text
  have hd := (decodeName_ok_iff env.pkt s.dec.offset (dnsMsgSize-w) (text.length+1) e
    (text ++ [0])).mpr ⟨j, ls, text, hr, hj, by omega, rfl, rfl, he⟩
  obtain ⟨r, hr', -, hrun⟩ := decodeNameAt_run env (w := w) (by omega) s
  obtain rfl : r = _ := Except.ok.inj (hr'.symm.trans hd)
  unfold nameField
  rw [bind_of_ok hrun]
  exact fixLabel_run hw s e

/-- A name that is not accepted, or does not fit with the root as a dot, ends the record. -/
theorem nameField_exit (env : DecEnv) (field : DnsLocation) {w : ℕ} {s : DecState}
    (hw : w ≤ dnsMsgSize)
    (hn : ∀ text e, NameAt env.pkt s.dec.offset text e → dnsMsgSize < w+(shown text).length+1) :
    ∃ c t, nameField env field w s = .exit c t := by
  obtain ⟨r, hr, -, hrun⟩ := decodeNameAt_run env hw s
  unfold nameField
  rw [bind_of_ok hrun]
  obtain ⟨result, off, out⟩ := r
  cases result with
  | error ec => exact ⟨_, _, rfl⟩
  | ok n =>
    obtain ⟨j, ls, text, hreads, hj, hroom, -, rfl, he⟩ := (decodeName_ok_iff _ _ _ _ _ _).mp hr
    have hlong := hn text off ⟨j, ls, hreads, hj, he⟩
    by_cases ht : text = []
    · have hl : (shown text).length = dnsNullStr.length := by simp [shown, ht]
      simp only [fixLabel, ht, List.length_nil, Nat.zero_add, ne_eq, not_true, if_false]
      rw [dnsAddStr_full hw (by omega)]
      exact ⟨_, _, rfl⟩
    · simp only [shown, ht, if_false] at hlong
      omega

theorem nameField_ok {env : DecEnv} {field : DnsLocation} {w n : ℕ} {s t : DecState}
    (hw : w ≤ dnsMsgSize) (h : nameField env field w s = .ok n t) :
    ∃ text e, NameAt env.pkt s.dec.offset text e ∧ w+(shown text).length+1 ≤ dnsMsgSize ∧
      n = (shown text).length ∧ t = moveTo (put s w (shown text ++ [0])) e := by
  by_cases hn : ∀ text e, NameAt env.pkt s.dec.offset text e →
      dnsMsgSize < w+(shown text).length+1
  · obtain ⟨c, u, hu⟩ := nameField_exit env field hw hn
    rw [hu] at h
    cases h
  · push Not at hn
    obtain ⟨text, e, hat, hfit⟩ := hn
    rw [nameField_run env field hat (by omega)] at h
    cases h
    exact ⟨text, e, hat, by omega, rfl, rfl⟩

theorem nameField_avoids (env : DecEnv) (field : DnsLocation) {w : ℕ} (hw : w ≤ dnsMsgSize)
    (P : Fault → Prop) (s : DecState) : Avoids P (nameField env field w) s := by
  by_cases hn : ∀ text e, NameAt env.pkt s.dec.offset text e →
      dnsMsgSize < w+(shown text).length+1
  · obtain ⟨c, t, h⟩ := nameField_exit env field hw hn
    exact avoids_of_exit h
  · push Not at hn
    obtain ⟨text, e, hat, hfit⟩ := hn
    exact avoids_of_ok (nameField_run env field hat (by omega))

/-- The bytes `decode_name` stores when it is given the room of a cursor. -/
def storedText (pkt : Bytes) (off w : ℕ) : Bytes :=
  match decodeName pkt off (sizeLeft w) with
  | .ok r => r.out
  | .error _ => []

theorem nameField_over (env : DecEnv) (field : DnsLocation) {w : ℕ} (hw : dnsMsgSize < w)
    (s : DecState) :
    (storedText env.pkt s.dec.offset w ≠ [] ∧ nameField env field w s = .fault (.msgWrite w)) ∨
    (storedText env.pkt s.dec.offset w = [] ∧ ∃ c t, nameField env field w s = .exit c t) := by
  obtain ⟨r, hr, -, -, -⟩ := decodeName_total env.pkt s.dec.offset (sizeLeft w)
  have hat : decodeNameAt env w s = (putMsg w r.out >>= fun _ =>
      modify (fun s => { s with dec.offset := r.offset }) >>= fun _ => pure r.result) s := by
    simp only [decodeNameAt, hr]
  simp only [storedText, hr]
  by_cases hout : r.out = []
  · refine .inr ⟨hout, ?_⟩
    have hrun : decodeNameAt env w s = .ok r.result (moveTo s r.offset) := by
      rw [hat, hout]
      simp [putMsg, bind, moveTo]
    unfold nameField
    rw [bind_of_ok hrun]
    obtain ⟨result, off, out⟩ := r
    cases result with
    | error ec => exact ⟨_, _, rfl⟩
    | ok n =>
      obtain ⟨j, ls, text, -, -, -, htext, -, -⟩ := (decodeName_ok_iff _ _ _ _ _ _).mp hr
      exact absurd (htext.symm.trans hout) (by simp)
  · refine .inl ⟨hout, ?_⟩
    unfold nameField
    rw [bind_of_fault (c := .msgWrite (max w dnsMsgSize))]
    · congr 2
      omega
    · rw [hat, bind_of_fault (putMsg_over hout (by omega) s)]

/-- The character string at `off`, unless it passes the RDATA end. -/
def strAt (pkt : Bytes) (rdEnd off : ℕ) : Option Bytes :=
  let len := ((slice pkt off 1).getD 0 0).toNat
  if rdEnd < off+1+len then none else some (slice pkt (off+1) len)

theorem strAt_length {pkt : Bytes} {rdEnd off : ℕ} {str : Bytes} (hrd : rdEnd ≤ pkt.length)
    (h : strAt pkt rdEnd off = some str) :
    str.length = ((slice pkt off 1).getD 0 0).toNat ∧ off+1+str.length ≤ rdEnd := by
  simp only [strAt] at h
  split_ifs at h with hlt
  cases h
  rw [length_slice _ _ _ (by omega)]
  exact ⟨rfl, by omega⟩

def Shows (s : DecState) (w : ℕ) (b : Bytes) : Prop :=
  slice s.dec.msg w (b.length+1) = b ++ [0]

theorem shows_put (s : DecState) {w : ℕ} {b : Bytes} (h : w+b.length+1 ≤ dnsMsgSize) :
    Shows (put s w (b ++ [0])) w b := by
  have hs := s.dec.msg_size
  have hl : (b ++ [0]).length = b.length+1 := by simp
  rw [Shows, put_scratch _ _ _ (by omega), ← hl]
  exact slice_patch_at _ _ _ (by omega)

@[simp] theorem shows_moveTo (s : DecState) (off w : ℕ) (b : Bytes) :
    Shows (moveTo s off) w b ↔ Shows s w b := Iff.rfl

theorem msgStr_run {s : DecState} {w : ℕ} (h : (0 : UInt8) ∈ s.dec.msg.drop w) :
    msgStr w s = .ok (cstr (s.dec.msg.drop w)) s := if_pos h

theorem Shows.drop {s : DecState} {w : ℕ} {b : Bytes} (h : Shows s w b) :
    ∃ rest, s.dec.msg.drop w = b ++ 0 :: rest := by
  refine ⟨(s.dec.msg.drop w).drop (b.length+1), ?_⟩
  have := List.take_append_drop (b.length+1) (s.dec.msg.drop w)
  rw [show (s.dec.msg.drop w).take (b.length+1) = b ++ [0] from h] at this
  simpa using this.symm

theorem Shows.msgStr {s : DecState} {w : ℕ} {b : Bytes} (h : Shows s w b) :
    msgStr w s = .ok (cstr b) s := by
  obtain ⟨rest, hr⟩ := h.drop
  rw [msgStr_run (by simp [hr]), hr, cstr_append_zero]

theorem msgStr_ok {s t : DecState} {w : ℕ} {b : Bytes} (h : msgStr w s = .ok b t) :
    t = s ∧ b.length ≤ dnsMsgSize := by
  unfold RecordDecoder.msgStr at h
  split at h
  · cases h
    have := cstr_length_le (s.dec.msg.drop w)
    have hs := s.dec.msg_size
    simp only [List.length_drop] at this
    exact ⟨rfl, by omega⟩
  · cases h

theorem msgStr_avoids (w : ℕ) (P : Fault → Prop) (s : DecState) :
    Avoids P (msgStr w) s ↔ (0 : UInt8) ∈ s.dec.msg.drop w ∨ ¬ P (.msgRead dnsMsgSize) := by
  by_cases h : (0 : UInt8) ∈ s.dec.msg.drop w
  · simp only [h, true_or, iff_true]
    exact avoids_of_ok (msgStr_run h)
  · simp only [h, false_or]
    exact avoids_of_fault (if_neg h)

theorem readBytes_avoids (env : DecEnv) (i n : ℕ) (P : Fault → Prop) (s : DecState) :
    Avoids P (readBytes env i n) s ↔
      n = 0 ∨ i+n ≤ env.pkt.length ∨ ¬ P (.pktRead (max i env.pkt.length)) := by
  by_cases h : n = 0 ∨ i+n ≤ env.pkt.length
  · have : n = 0 ∨ i+n ≤ env.pkt.length ∨ ¬ P (.pktRead (max i env.pkt.length)) := by tauto
    simp only [this, iff_true]
    exact avoids_of_ok (readBytes_run env h s)
  · rw [avoids_of_fault (readBytes_over env h s)]
    tauto

end DnsPkt.RecordRun
