import DnsPkt.ScratchBounds

/-!
# Strings read back from the scratch buffer

The report line of a record prints the owner name and the description from
the scratch buffer. Both end in a zero byte when something was written for
them. Nothing is written for a `TXT` record without strings, nor for a
description that would start right at the end of the buffer.
-/

set_option autoImplicit false

namespace DnsPkt.ScratchText
open DnsPkt.CheckedRun DnsPkt.CheckedRun.Run DnsPkt.Octets DnsPkt.Protocol
open DnsPkt.MessageStore DnsPkt.ReportText DnsPkt.RecordDecoder DnsPkt.MessageDecoder
open DnsPkt.RecordRun DnsPkt.RecordFrame DnsPkt.RecordEntry DnsPkt.MessageRun
open DnsPkt.PacketBounds DnsPkt.ScratchBounds

def isMsgRead : Fault → Prop
  | .msgRead _ => True
  | _ => False

/-- Some string ends at or after position `w` of the buffer. -/
def Ends (s : DecState) (w : ℕ) : Prop := (0 : UInt8) ∈ s.dec.msg.drop w

theorem not_ends_at_end (s : DecState) : ¬ Ends s dnsMsgSize := by
  have hs := s.dec.msg_size
  rw [Ends, List.drop_of_length_le (by omega)]
  exact List.not_mem_nil

theorem Shows.ends {s : DecState} {w : ℕ} {b : Bytes} (h : Shows s w b) : Ends s w := by
  obtain ⟨rest, hr⟩ := h.drop
  rw [Ends, hr]
  simp

theorem ends_put {s : DecState} {w v : ℕ} {b : Bytes} (hwv : w ≤ v)
    (h : v+(b ++ [0]).length ≤ dnsMsgSize) : Ends (put s v (b ++ [0])) w := by
  have hs := s.dec.msg_size
  have hl : (s.dec.msg.take v).length = v := by simp; omega
  rw [Ends, put_scratch _ _ _ h, patch, List.append_assoc, List.drop_append_of_le_length (by omega)]
  simp

theorem ends_put_cut {s : DecState} {w v : ℕ} (text : Bytes) (hwv : w ≤ v) (hv : v ≤ dnsMsgSize)
    (h : Ends s w ∨ v < dnsMsgSize) : Ends (put s v (cut v text)) w := by
  by_cases hend : v = dnsMsgSize
  · have : Ends s w := h.resolve_right (by omega)
    simpa [cut, hend] using this
  · have hfit := cut_fits hv text
    simp only [cut, hend, if_false] at hfit ⊢
    exact ends_put hwv hfit

@[simp] theorem ends_moveTo (s : DecState) (off w : ℕ) : Ends (moveTo s off) w ↔ Ends s w := Iff.rfl

def frontFrame (lo : ℕ) : Frame DecState ℤ Fault where
  keep s t := t.dec.msg.take lo = s.dec.msg.take lo
  leave _ _ _ := True
  raise _ := True
  refl _ := rfl
  trans h1 h2 := h2.trans h1
  lift _ _ := trivial

theorem frontFrame_allows (lo : ℕ) : Allows lo (frontFrame lo) where
  put s w b hw := by
    by_cases h : w+b.length ≤ dnsMsgSize
    · have hs := s.dec.msg_size
      change (put s w b).dec.msg.take lo = s.dec.msg.take lo
      rw [put_scratch _ _ _ h, patch, List.append_assoc,
        List.take_append_of_le_length (by simp; omega), List.take_take, Nat.min_eq_left hw]
    · rw [put, dif_neg h]
      rfl
  move _ _ _ := rfl
  load _ _ _ := rfl
  err s group field ec := trivial
  fail _ := trivial
  report _ _ := rfl
  reads _ := trivial
  writes _ := trivial
  strings _ := trivial

theorem shows_of_front {s t : DecState} {b : Bytes} (hs : Shows s 0 b)
    (h : t.dec.msg.take (b.length+1) = s.dec.msg.take (b.length+1)) : Shows t 0 b := by
  unfold Shows slice at *
  rw [List.drop_zero] at *
  rw [h]
  exact hs

theorem rrReport_strings {env : DecEnv} (he : env.needEmsg = true) (sc : Sect) (h : RrHdr)
    (out : RdataOut) {s : DecState} {name : Bytes} (hs : Shows s 0 name) :
    Avoids isMsgRead (rrReport env sc h out) s ↔ ∀ w, out.desc = .scratch w → Ends s w := by
  have hname : ∃ b, nameText out s = .ok b s := by
    unfold nameText
    split
    · exact ⟨_, rfl⟩
    · exact ⟨_, hs.msgStr⟩
  obtain ⟨b, hb⟩ := hname
  unfold rrReport
  rw [if_pos he, avoids_bind_of_ok hb, avoids_bind]
  simp only [dnsWmsg_avoids, implies_true, and_true]
  cases hd : out.desc with
  | empty => simp [descText]
  | scratch w =>
    have := msgStr_avoids w isMsgRead s
    simpa [descText, isMsgRead, Ends] using this
  | unknown => simp [descText]

theorem rrTail_strings {env : DecEnv} (he : env.needEmsg = true) (hl : env.loadMsg = false)
    (sc : Sect) (h : RrHdr) (n start rdEnd : ℕ) {s : DecState} {name : Bytes}
    (hs : Shows s 0 name) (hn : n = name.length)
    (hrd : Avoids isMsgRead (rrRdata env sc h (n+1) start rdEnd n) s) :
    Avoids isMsgRead (rrTail env sc h n start rdEnd) s ↔
      ∀ out t, rrRdata env sc h (n+1) start rdEnd n s = .ok out t → t.dec.offset = rdEnd →
        ∀ w, out.desc = .scratch w → Ends t w := by
  rw [rrTail, avoids_bind]
  simp only [hrd, true_and]
  refine forall₃_congr fun out t ht => ?_
  have hfront := (keeps_rrRdata (frontFrame_allows (n+1)).toAllowsFill env sc h le_rfl start rdEnd n
    fun _ _ => rfl).ok ht
  have hshow : Shows t 0 name := shows_of_front hs (by rw [← hn]; exact hfront)
  rw [avoids_bind_of_ok (getOffset_run t)]
  by_cases hoff : t.dec.offset = rdEnd
  · rw [when_neg (by simpa using hoff), avoids_bind_of_ok (pure_run _ _), when_neg (by simp [hl]),
      avoids_bind_of_ok (pure_run _ _), rrReport_strings he sc h out hshow]
    simp only [hoff, forall_true_left]
  · rw [when_pos hoff]
    exact iff_of_true (avoids_of_exit rfl) fun h => absurd h hoff

theorem putMsg_strings (w : ℕ) (b : Bytes) (s : DecState) : Avoids isMsgRead (putMsg w b) s := by
  intro c h
  obtain ⟨i, rfl⟩ := putMsg_fault h
  exact id

theorem describe_strings (env : DecEnv) (w : ℕ) (rc : ℤ) (text : Bytes) (s : DecState) :
    Avoids isMsgRead (describe env w rc text) s := by
  unfold describe snprintf
  split
  · exact avoids_seq (avoids_seq (putMsg_strings w _ s) fun _ _ _ => avoids_pure _ _)
      fun _ _ _ => avoids_pure _ _
  · exact avoids_pure _ _

theorem nameField_strings (env : DecEnv) (field : DnsLocation) (w : ℕ) (s : DecState) :
    Avoids isMsgRead (nameField env field w) s := by
  by_cases hw : w ≤ dnsMsgSize
  · exact nameField_avoids env field hw _ s
  · rcases nameField_over env field (Nat.lt_of_not_le hw) s with ⟨-, h⟩ | ⟨-, c, t, h⟩
    · exact (avoids_of_fault h).mpr id
    · exact avoids_of_exit h

theorem readBytes_strings (env : DecEnv) (i n : ℕ) (s : DecState) :
    Avoids isMsgRead (readBytes env i n) s := by
  rw [readBytes_avoids]
  exact .inr (.inr id)

theorem describeVals_strings (env : DecEnv) (vals : List (String × UInt32)) (w : ℕ) (rc : ℤ)
    (s : DecState) : Avoids isMsgRead (describeVals env vals w rc) s := by
  induction vals generalizing w rc s with
  | nil => exact avoids_pure _ _
  | cons v rest ih => exact avoids_seq (describe_strings env w rc _ s) fun p t _ => ih p.1 p.2 t

section Validate

variable {env : DecEnv} (he : env.needEmsg = true) (hl : env.loadMsg = false)
include hl

theorem skip_load {x : Dec Unit} (s : DecState) : when (env.loadMsg = true) x s = .ok () s := by
  rw [when_neg (by simp [hl])]
  rfl

theorem load_strings {x : Dec Unit} (s : DecState) :
    Avoids isMsgRead (when (env.loadMsg = true) x) s := avoids_of_ok (skip_load hl s)

theorem loadName_strings (sc : Sect) (w : ℕ) (f : ℕ → Ptr → DnsRr Ptr → DnsRr Ptr)
    (s : DecState) : Avoids isMsgRead (loadName env sc w f) s :=
  avoids_of_ok (loadName_validate hl sc w f s)

omit hl in
theorem guard_strings {p : Prop} [Decidable p] (group field : DnsLocation) (ec : ℤ)
    (s : DecState) : Avoids isMsgRead (when p (retErr group field ec)) s :=
  (avoids_when _ _ _).mpr fun _ => avoids_of_exit rfl

theorem strField_strings (field : DnsLocation) (label : Bytes) (rdEnd w : ℕ) (rc : ℤ)
    (load : Bytes → Dec Unit) (s : DecState) :
    Avoids isMsgRead (strField env field label rdEnd w rc load) s :=
  avoids_seq (avoids_of_ok (getOffset_run s)) fun _ _ _ =>
    avoids_seq (readBytes_strings _ _ _ _) fun _ _ _ =>
    avoids_seq (avoids_modify _ _) fun _ _ _ =>
    avoids_seq (guard_strings _ _ _ _) fun _ _ _ =>
    avoids_seq (readBytes_strings _ _ _ _) fun _ _ _ =>
    avoids_seq (describe_strings _ _ _ _ _) fun _ _ _ =>
    avoids_seq (load_strings hl _) fun _ _ _ =>
    avoids_seq (avoids_modify _ _) fun _ _ _ => avoids_pure _ _

theorem txtLoop_strings (sc : Sect) (rdEnd k w : ℕ) (rc : ℤ) (s : DecState) :
    Avoids isMsgRead (txtLoop env sc rdEnd k w rc) s := by
  induction k generalizing w rc s with
  | zero => exact avoids_pure _ _
  | succ k ih =>
    unfold txtLoop
    rw [avoids_bind_of_ok (getOffset_run s)]
    split
    · exact avoids_seq (strField_strings hl _ _ _ _ _ _ _) fun p t _ => ih p.1 p.2 t
    · exact avoids_pure _ _

theorem rdataName_strings (sc : Sect) (field : DnsLocation)
    (f : ℕ → Ptr → Rdata Ptr → Rdata Ptr) (w : ℕ) (s : DecState) :
    Avoids isMsgRead (rdataName env sc field f w) s :=
  avoids_seq (nameField_strings _ _ _ _) fun _ _ _ =>
    avoids_seq (loadName_strings hl _ _ _ _) fun _ _ _ => avoids_pure _ _

omit hl in
theorem describeIp_strings (start w : ℕ) (rc : ℤ) (s : DecState) :
    Avoids isMsgRead (describeIp env start w rc) s := by
  unfold describeIp
  split_ifs
  · exact avoids_pure _ _
  · exact avoids_seq (readBytes_strings _ _ _ _) fun _ _ _ =>
      avoids_seq (putMsg_strings _ _ _) fun _ _ _ => avoids_pure _ _
  · exact avoids_pure _ _

omit hl in
theorem rdataSkip_strings (h : RrHdr) (rc : ℤ) (s : DecState) :
    Avoids isMsgRead (rdataSkip h rc) s :=
  avoids_seq (avoids_modify _ _) fun _ _ _ => avoids_pure _ _

theorem rrRdata_strings (sc : Sect) (h : RrHdr) (w start rdEnd : ℕ) (rc : ℤ) (s : DecState) :
    Avoids isMsgRead (rrRdata env sc h w start rdEnd rc) s := by
  unfold rrRdata
  cases rrKind h.rrType with
  | a =>
    exact avoids_seq (guard_strings _ _ _ _) fun _ _ _ =>
      avoids_seq (load_strings hl _) fun _ _ _ =>
      avoids_seq (avoids_modify _ _) fun _ _ _ => describeIp_strings _ _ _ _
  | aaaa =>
    exact avoids_seq (guard_strings _ _ _ _) fun _ _ _ =>
      avoids_seq (avoids_modify _ _) fun _ _ _ =>
      avoids_seq (load_strings hl _) fun _ _ _ => describeIp_strings _ _ _ _
  | ns => exact rdataName_strings hl _ _ _ _ _
  | cname => exact rdataName_strings hl _ _ _ _ _
  | ptr => exact rdataName_strings hl _ _ _ _ _
  | soa =>
    exact avoids_seq (describe_strings _ _ _ _ _) fun _ _ _ =>
      avoids_seq (nameField_strings _ _ _ _) fun _ _ _ =>
      avoids_seq (loadName_strings hl _ _ _ _) fun _ _ _ =>
      avoids_seq (describe_strings _ _ _ _ _) fun _ _ _ =>
      avoids_seq (nameField_strings _ _ _ _) fun _ _ _ =>
      avoids_seq (load_strings hl _) fun _ _ _ =>
      avoids_seq (avoids_of_ok (getOffset_run _)) fun _ _ _ =>
      avoids_seq (guard_strings _ _ _ _) fun _ _ _ =>
      avoids_seq (readBytes_strings _ _ _ _) fun _ _ _ =>
      avoids_seq (avoids_modify _ _) fun _ _ _ =>
      avoids_seq (describeVals_strings _ _ _ _ _) fun _ _ _ =>
      avoids_seq (load_strings hl _) fun _ _ _ => avoids_pure _ _
  | hinfo =>
    exact avoids_seq (guard_strings _ _ _ _) fun _ _ _ =>
      avoids_seq (strField_strings hl _ _ _ _ _ _ _) fun _ _ _ =>
      avoids_seq (avoids_of_ok (getOffset_run _)) fun _ _ _ =>
      avoids_seq (guard_strings _ _ _ _) fun _ _ _ =>
      avoids_seq (strField_strings hl _ _ _ _ _ _ _) fun _ _ _ => avoids_pure _ _
  | mx =>
    exact avoids_seq (guard_strings _ _ _ _) fun _ _ _ =>
      avoids_seq (readBytes_strings _ _ _ _) fun _ _ _ =>
      avoids_seq (avoids_modify _ _) fun _ _ _ =>
      avoids_seq (describe_strings _ _ _ _ _) fun _ _ _ =>
      avoids_seq (nameField_strings _ _ _ _) fun _ _ _ =>
      avoids_seq (load_strings hl _) fun _ _ _ =>
      avoids_seq (loadName_strings hl _ _ _ _) fun _ _ _ => avoids_pure _ _
  | srv =>
    exact avoids_seq (guard_strings _ _ _ _) fun _ _ _ =>
      avoids_seq (readBytes_strings _ _ _ _) fun _ _ _ =>
      avoids_seq (avoids_modify _ _) fun _ _ _ =>
      avoids_seq (describe_strings _ _ _ _ _) fun _ _ _ =>
      avoids_seq (nameField_strings _ _ _ _) fun _ _ _ =>
      avoids_seq (load_strings hl _) fun _ _ _ =>
      avoids_seq (loadName_strings hl _ _ _ _) fun _ _ _ => avoids_pure _ _
  | txt => exact avoids_seq (txtLoop_strings hl _ _ _ _ _ _) fun _ _ _ => avoids_pure _ _
  | opt =>
    exact avoids_seq (guard_strings _ _ _ _) fun _ _ _ =>
      avoids_seq (load_strings hl _) fun _ _ _ =>
      avoids_seq (avoids_get _) fun _ _ _ =>
      avoids_seq (avoids_seq (putMsg_strings _ _ _) fun _ _ _ => avoids_pure _ _) fun _ _ _ =>
      avoids_seq (avoids_modify _ _) fun _ _ _ => avoids_pure _ _
  | any => exact rdataSkip_strings _ _ _
  | other => exact rdataSkip_strings _ _ _

end Validate

theorem describe_ends {env : DecEnv} {w v : ℕ} {rc : ℤ} {text : Bytes} {s t : DecState} {p : ℕ × ℤ}
    (hwv : w ≤ v) (hs : Ends s w) (h : describe env v rc text s = .ok p t) : Ends t w := by
  unfold describe at h
  split at h
  · obtain ⟨n, m, hm, h⟩ := (bind_ok _ _ _ _ _).mp h
    obtain ⟨_, m', hm', h'⟩ := (bind_ok _ _ _ _ _).mp hm
    cases h
    cases h'
    by_cases hz : sizeLeft v = 0
    · simp only [hz, if_true, putMsg, Outcome.ok.injEq, true_and] at hm'
      exact hm' ▸ hs
    · simp only [hz, if_false] at hm'
      by_cases hfit : v+(text.take (sizeLeft v-1) ++ [0]).length ≤ dnsMsgSize
      · rw [putMsg_run hfit] at hm'
        cases hm'
        exact ends_put hwv hfit
      · rw [putMsg_over (by simp) (by omega)] at hm'
        cases hm'
  · cases h
    exact hs

theorem nameField_ends {env : DecEnv} {field : DnsLocation} {w v n : ℕ} {s t : DecState}
    (hwv : w ≤ v) (h : nameField env field v s = .ok n t) : Ends t w := by
  by_cases hv : v ≤ dnsMsgSize
  · obtain ⟨text, e, -, hfit, -, rfl⟩ := nameField_ok hv h
    rw [ends_moveTo]
    exact ends_put hwv (by simp; omega)
  · rcases nameField_over env field (Nat.lt_of_not_le hv) s with ⟨-, hx⟩ | ⟨-, c, u, hx⟩
    · rw [hx] at h
      cases h
    · rw [hx] at h
      cases h

theorem describeVals_ends {env : DecEnv} {w v : ℕ} {rc : ℤ} {vals : List (String × UInt32)}
    {s t : DecState} {p : ℕ × ℤ} (hwv : w ≤ v) (hs : Ends s w)
    (h : describeVals env vals v rc s = .ok p t) : Ends t w := by
  induction vals generalizing v rc s with
  | nil =>
    cases h
    exact hs
  | cons val rest ih =>
    obtain ⟨q, m, hq, hr⟩ := (bind_ok _ _ _ _ _).mp h
    exact ih (hwv.trans (describe_le hq)) (describe_ends hwv hs hq) hr

section Kinds

variable {env : DecEnv} (he : env.needEmsg = true) (hl : env.loadMsg = false)
  {s t : DecState} {out : RdataOut}

/-- The description of the kind starts at `w`, and a string ends after it. -/
def Terminated (out : RdataOut) (t : DecState) (w : ℕ) : Prop :=
  ∀ v, out.desc = .scratch v → v = w ∧ Ends t w

include he in
theorem describeIp_terminated {start w : ℕ} {rc : ℤ} (hw : w ≤ dnsMsgSize)
    (h : describeIp env start w rc s = .ok out t) : Terminated out t w := by
  unfold describeIp at h
  rw [if_pos he, sizeLeft_of_le hw] at h
  split_ifs at h with hroom
  · cases h
    intro v hv
    cases hv
  · obtain ⟨b, m, -, h⟩ := (bind_ok _ _ _ _ _).mp h
    obtain ⟨_, u, hu, h⟩ := (bind_ok _ _ _ _ _).mp h
    cases h
    intro v hv
    cases hv
    have hlen := ip4Str_length_le b
    rw [show ip4AddrStrlen = 16 from rfl] at hroom
    have hfit : w+(ip4Str b ++ [0]).length ≤ dnsMsgSize := by simp; omega
    rw [putMsg_run hfit] at hu
    cases hu
    exact ⟨rfl, ends_put le_rfl hfit⟩

include hl in
theorem rdataName_terminated {sc : Sect} {field : DnsLocation}
    {f : ℕ → Ptr → Rdata Ptr → Rdata Ptr} {w : ℕ}
    (h : rdataName env sc field f w s = .ok out t) : Terminated out t w := by
  obtain ⟨n, m, hm, h⟩ := (bind_ok _ _ _ _ _).mp h
  rw [bind_of_ok (loadName_validate hl _ _ _ _)] at h
  cases h
  intro v hv
  cases hv
  exact ⟨rfl, nameField_ends le_rfl hm⟩

include hl in
theorem rdataSoa_terminated {sc : Sect} {w rdEnd : ℕ} {rc : ℤ}
    (h : rdataSoa env sc w rdEnd rc s = .ok out t) : Terminated out t w := by
  unfold rdataSoa at h
  obtain ⟨⟨w1, rc1⟩, m1, h1, h⟩ := (bind_ok _ _ _ _ _).mp h
  obtain ⟨n1, m2, -, h⟩ := (bind_ok _ _ _ _ _).mp h
  rw [bind_of_ok (loadName_validate hl _ _ _ _)] at h
  obtain ⟨⟨w2, rc2⟩, m3, h3, h⟩ := (bind_ok _ _ _ _ _).mp h
  obtain ⟨n2, m4, h4, h⟩ := (bind_ok _ _ _ _ _).mp h
  have hw2 : w ≤ w2 := by
    have hle1 := describe_le h1
    have hle3 := describe_le h3
    dsimp only at hle1 hle3
    omega
  have hends := nameField_ends hw2 h4
  rw [bind_of_ok (skip_load hl _), bind_of_ok (getOffset_run m4)] at h
  obtain ⟨_, m5, h5, h⟩ := (bind_ok _ _ _ _ _).mp h
  obtain ⟨b, m6, h6, h⟩ := (bind_ok _ _ _ _ _).mp h
  rw [bind_of_ok (advance_run _ _)] at h
  obtain ⟨⟨w3, rc3⟩, m7, h7, h⟩ := (bind_ok _ _ _ _ _).mp h
  have hm5 : m5 = m4 := by
    unfold Run.when at h5
    split_ifs at h5 <;> cases h5
    rfl
  obtain ⟨-, -, hm6⟩ := readBytes_ok h6
  rw [← hm5, ← hm6] at hends
  dsimp only at h
  rw [bind_of_ok (loadRdata_validate hl _ _ _)] at h
  cases h
  intro v hv
  cases hv
  exact ⟨rfl, describeVals_ends (show w ≤ w2+n2 by omega) ((ends_moveTo _ _ _).mpr hends) h7⟩

include he hl in
theorem rdataHinfo_terminated {sc : Sect} {h : RrHdr} {w rdEnd : ℕ} {rc : ℤ}
    (hw : w ≤ dnsMsgSize) (hrd : rdEnd ≤ env.pkt.length)
    (hrun : rdataHinfo env sc h w rdEnd rc s = .ok out t) : Terminated out t w := by
  rw [show (dnsMsgSize : ℕ) = 1124 from rfl] at hw
  unfold rdataHinfo at hrun
  obtain ⟨_, m0, -, hrun⟩ := (bind_ok _ _ _ _ _).mp hrun
  obtain ⟨⟨w1, rc1⟩, m1, h1, hrun⟩ := (bind_ok _ _ _ _ _).mp hrun
  dsimp only at hrun
  rw [bind_of_ok (getOffset_run m1)] at hrun
  obtain ⟨_, m2, h2, hrun⟩ := (bind_ok _ _ _ _ _).mp hrun
  obtain ⟨⟨w2, rc2⟩, m3, h3, hrun⟩ := (bind_ok _ _ _ _ _).mp hrun
  have hm2 : m2 = m1 := by
    unfold Run.when at h2
    split_ifs at h2 <;> cases h2
    rfl
  rw [hm2] at h3
  cases hrun
  obtain ⟨cpu, hcpu, -, hp, hm1⟩ := strField_ok he hl hrd (by omega) h1
  rw [hm1] at h3
  cases hp
  have hcpulen := (strAt_length hrd hcpu).1
  have hbyte := ((slice env.pkt m0.dec.offset 1).getD 0 0).toNat_lt
  have hcstr := cstr_length_le cpu
  simp only [List.length_append, show (ascii " cpu=").length = 5 from rfl] at h3
  obtain ⟨os, -, hfit, -, rfl⟩ := strField_ok he hl hrd (by omega) h3
  intro v hv
  cases hv
  refine ⟨rfl, ?_⟩
  rw [ends_moveTo]
  refine ends_put_cut _ (by omega) hfit (.inl ?_)
  simp only [ends_moveTo]
  exact ends_put_cut _ le_rfl (by omega) (.inr (by omega))

/-- Every record type but `TXT` and `OPT` writes a string where its
description starts. -/
theorem rrRdata_terminated {sc : Sect} {h : RrHdr} {w start rdEnd : ℕ} {rc : ℤ}
    (he : env.needEmsg = true) (hl : env.loadMsg = false) (hw : w ≤ dnsMsgSize)
    (hrd : rdEnd ≤ env.pkt.length) (ht : rrKind h.rrType ≠ .txt) (ho : rrKind h.rrType ≠ .opt)
    (hrun : rrRdata env sc h w start rdEnd rc s = .ok out t) : Terminated out t w := by
  have hskip (hrun : rdataSkip h rc s = .ok out t) : Terminated out t w := by
    cases hrun
    intro v hv
    cases hv
  have hfixed {α : Type} {x y : Dec Unit} {z : Unit → Dec α} {a : α}
      (hx : (x >>= fun _ => y >>= z) s = .ok a t) : ∃ m, z () m = .ok a t := by
    obtain ⟨_, _, _, hx⟩ := (bind_ok _ _ _ _ _).mp hx
    obtain ⟨_, m, _, hx⟩ := (bind_ok _ _ _ _ _).mp hx
    exact ⟨m, hx⟩
  unfold rrRdata at hrun
  cases hk : rrKind h.rrType with
  | a =>
    rw [hk] at hrun
    obtain ⟨m, hm⟩ := hfixed hrun
    rw [bind_of_ok (advance_run _ _)] at hm
    exact describeIp_terminated he hw hm
  | aaaa =>
    rw [hk] at hrun
    obtain ⟨m, hm⟩ := hfixed hrun
    rw [bind_of_ok (skip_load hl _)] at hm
    exact describeIp_terminated he hw hm
  | ns =>
    rw [hk] at hrun
    exact rdataName_terminated hl hrun
  | cname =>
    rw [hk] at hrun
    exact rdataName_terminated hl hrun
  | ptr =>
    rw [hk] at hrun
    exact rdataName_terminated hl hrun
  | soa =>
    rw [hk] at hrun
    exact rdataSoa_terminated hl hrun
  | hinfo =>
    rw [hk] at hrun
    exact rdataHinfo_terminated he hl hw hrd hrun
  | mx =>
    rw [hk] at hrun
    obtain ⟨_, m0, -, hrun⟩ := (bind_ok _ _ _ _ _).mp hrun
    obtain ⟨b, m1, -, hrun⟩ := (bind_ok _ _ _ _ _).mp hrun
    rw [bind_of_ok (advance_run _ _)] at hrun
    obtain ⟨⟨w1, rc1⟩, m2, h2, hrun⟩ := (bind_ok _ _ _ _ _).mp hrun
    obtain ⟨n, m3, h3, hrun⟩ := (bind_ok _ _ _ _ _).mp hrun
    rw [bind_of_ok (loadRdata_validate hl _ _ _),
      bind_of_ok (loadName_validate hl _ _ _ _)] at hrun
    cases hrun
    intro v hv
    cases hv
    exact ⟨rfl, nameField_ends (describe_le h2) h3⟩
  | srv =>
    rw [hk] at hrun
    obtain ⟨_, m0, -, hrun⟩ := (bind_ok _ _ _ _ _).mp hrun
    obtain ⟨b, m1, -, hrun⟩ := (bind_ok _ _ _ _ _).mp hrun
    rw [bind_of_ok (advance_run _ _)] at hrun
    obtain ⟨⟨w1, rc1⟩, m2, h2, hrun⟩ := (bind_ok _ _ _ _ _).mp hrun
    obtain ⟨n, m3, h3, hrun⟩ := (bind_ok _ _ _ _ _).mp hrun
    rw [bind_of_ok (loadRdata_validate hl _ _ _),
      bind_of_ok (loadName_validate hl _ _ _ _)] at hrun
    cases hrun
    intro v hv
    cases hv
    exact ⟨rfl, nameField_ends (describe_le h2) h3⟩
  | any =>
    rw [hk] at hrun
    exact hskip hrun
  | other =>
    rw [hk] at hrun
    exact hskip hrun
  | txt => exact absurd hk ht
  | opt => exact absurd hk ho

end Kinds

/-- The character strings from `off` on fill the RDATA exactly. -/
def TxtFills (pkt : Bytes) (rdEnd : ℕ) : ℕ → ℕ → Prop
  | 0, off => off = rdEnd
  | k+1, off =>
    if off < rdEnd then match strAt pkt rdEnd off with
      | none => False
      | some str => TxtFills pkt rdEnd k (off+1+str.length)
    else off = rdEnd

section Txt

variable {env : DecEnv} (he : env.needEmsg = true) (hl : env.loadMsg = false)
include he hl

theorem txtLoop_ok {sc : Sect} {rdEnd k w : ℕ} {rc : ℤ} {s t : DecState} {p : ℕ × ℤ}
    (hrd : rdEnd ≤ env.pkt.length) (hw : w ≤ 2^32)
    (h : txtLoop env sc rdEnd k w rc s = .ok p t) :
    (t.dec.offset = rdEnd → TxtFills env.pkt rdEnd k s.dec.offset) ∧
      (∀ v, v ≤ w → Ends s v → Ends t v) ∧
      (s.dec.offset < rdEnd → 0 < k → w < dnsMsgSize → Ends t w) ∧
      (rdEnd ≤ s.dec.offset → t = s) := by
  induction k generalizing w rc s with
  | zero =>
    cases h
    exact ⟨id, fun _ _ h => h, fun _ h => absurd h (by omega), fun _ => rfl⟩
  | succ k ih =>
    unfold txtLoop at h
    rw [bind_of_ok (getOffset_run s)] at h
    by_cases hin : s.dec.offset < rdEnd
    · rw [if_pos hin] at h
      obtain ⟨⟨w1, rc1⟩, m, hm, hr⟩ := (bind_ok _ _ _ _ _).mp h
      obtain ⟨str, hstr, hfit, hp, rfl⟩ := strField_ok he hl hrd (by omega) hm
      have hlen := (strAt_length hrd hstr).1
      have hbyte := ((slice env.pkt s.dec.offset 1).getD 0 0).toNat_lt
      have hcstr := cstr_length_le str
      rw [show (dnsMsgSize : ℕ) = 1124 from rfl] at hfit
      simp only [List.length_append, show (ascii " txt=").length = 5 from rfl,
        Prod.mk.injEq] at hp
      obtain ⟨hfill, hkeep, -, -⟩ := ih (by omega) hr
      refine ⟨fun ht => ?_, fun v hv hs => ?_, fun _ _ hlt => ?_, fun hle => absurd hle (by omega)⟩
      · simp only [TxtFills, hin, if_true, hstr]
        exact hfill ht
      · exact hkeep v (by omega) ((ends_moveTo _ _ _).mpr (ends_put_cut _ hv hfit (.inl hs)))
      · exact hkeep w (by omega) ((ends_moveTo _ _ _).mpr (ends_put_cut _ le_rfl hfit (.inr hlt)))
    · rw [if_neg hin] at h
      cases h
      refine ⟨fun ht => ?_, fun _ _ h => h, fun hlt => absurd hlt hin, fun _ => rfl⟩
      simpa [TxtFills, hin] using ht

theorem txtLoop_run (sc : Sect) {rdEnd k w : ℕ} (rc : ℤ) {s : DecState}
    (hrd : rdEnd ≤ env.pkt.length) (hfill : TxtFills env.pkt rdEnd k s.dec.offset)
    (hfits : Fits env.pkt w (txtPieces env.pkt rdEnd k s.dec.offset)) :
    ∃ p t, txtLoop env sc rdEnd k w rc s = .ok p t ∧ t.dec.offset = rdEnd := by
  induction k generalizing w rc s with
  | zero => exact ⟨_, s, rfl, hfill⟩
  | succ k ih =>
    unfold txtLoop
    rw [bind_of_ok (getOffset_run s)]
    by_cases hin : s.dec.offset < rdEnd
    · simp only [TxtFills, txtPieces, hin, if_true] at hfill hfits ⊢
      cases hstr : strAt env.pkt rdEnd s.dec.offset with
      | none =>
        rw [hstr] at hfill
        exact absurd hfill id
      | some str =>
        simp only [hstr, Fits] at hfill hfits
        rw [bind_of_ok (strField_run he hl hrd (by omega) hstr hfits.1)]
        refine ih _ hfill ?_
        simpa only [List.length_append, show (ascii " txt=").length = 5 from rfl, moveTo_offset]
          using hfits.2
    · simp only [TxtFills, hin, if_false] at hfill ⊢
      exact ⟨_, s, rfl, hfill⟩

/-- What a text record needs of the buffer before it. -/
theorem rdataTxt_terminated {sc : Sect} {w rdEnd : ℕ} {rc : ℤ} {s : DecState}
    (hw : w ≤ dnsMsgSize) (hrd : rdEnd ≤ env.pkt.length)
    (hfits : Fits env.pkt w (txtPieces env.pkt rdEnd (rdEnd-s.dec.offset) s.dec.offset)) :
    (∀ out t, rdataTxt env sc w s.dec.offset rdEnd rc s = .ok out t → t.dec.offset = rdEnd →
        ∀ v, out.desc = .scratch v → Ends t v) ↔
      (TxtFills env.pkt rdEnd (rdEnd-s.dec.offset) s.dec.offset →
        if rdEnd = s.dec.offset then Ends s w else w < dnsMsgSize) := by
  have hw' : w ≤ 2^32 := by
    rw [show (dnsMsgSize : ℕ) = 1124 from rfl] at hw
    omega
  constructor
  · intro h hfill
    obtain ⟨⟨w', rc'⟩, t, ht, hoff⟩ := txtLoop_run he hl sc rc hrd hfill hfits
    have hends := h _ t (by rw [rdataTxt, bind_of_ok ht]; rfl) hoff w rfl
    obtain ⟨-, -, -, hsame⟩ := txtLoop_ok he hl hrd hw' ht
    split_ifs with hend
    · rwa [hsame (by omega)] at hends
    · by_contra hlt
      obtain rfl : w = dnsMsgSize := by omega
      exact not_ends_at_end t hends
  · intro h out t ht hoff v hv
    obtain ⟨⟨w', rc'⟩, m, hm, ht⟩ := (bind_ok _ _ _ _ _).mp ht
    cases ht
    cases hv
    obtain ⟨hfill, -, hwrote, hsame⟩ := txtLoop_ok he hl hrd hw' hm
    have hcond := h (hfill hoff)
    split_ifs at hcond with hend
    · rw [hsame (by omega)]
      exact hcond
    · by_cases hlt : s.dec.offset < rdEnd
      · exact hwrote hlt (by omega) hcond
      · rw [hsame (by omega)] at hoff
        omega

end Txt

theorem rdataOpt_terminated {env : DecEnv} (hl : env.loadMsg = false) {sc : Sect} {h : RrHdr}
    {w rdEnd : ℕ} {s : DecState} (hw : w ≤ dnsMsgSize) :
    (∀ out t, rdataOpt env sc h w rdEnd s = .ok out t → t.dec.offset = rdEnd →
        ∀ v, out.desc = .scratch v → Ends t v) ↔ (sc = .ar → w < dnsMsgSize) := by
  by_cases hsc : sc = .ar
  · simp only [hsc, forall_true_left]
    have hrun : rdataOpt env .ar h w rdEnd s = .ok
        ⟨(optText h).length, .scratch w, decide (s.dec.msg.head? = some 46)⟩
        (noteOpt h rdEnd (put s w (cut w (optText h)))) := by
      unfold rdataOpt
      rw [when_neg (by simp), bind_of_ok (pure_run _ _), bind_of_ok (skip_load hl _),
        bind_of_ok (get_run s), bind_of_ok (snprintf_run hw _ s)]
      rfl
    constructor
    · intro hend
      by_contra hlt
      obtain rfl : w = dnsMsgSize := by omega
      exact not_ends_at_end _ (hend _ _ hrun rfl _ rfl)
    · intro hlt out t ht _ v hv
      rw [hrun] at ht
      cases ht
      cases hv
      exact ends_put_cut (s := s) (optText h) le_rfl hw (.inr hlt)
  · refine iff_of_true (fun out t ht => ?_) fun h => absurd h hsc
    unfold rdataOpt at ht
    rw [when_pos hsc] at ht
    cases ht

/-- The description of the record at the decoder's offset can be printed: an
`OPT` description starts before the end of the buffer, and so does that of a
`TXT` record, or the buffer still holds the end of an earlier string. -/
def DescriptionEnds (env : DecEnv) (v : Sect × DecState) : Prop :=
  ∀ text e, Entry env v.1 v.2 text e →
    match rrKind (hdrAt env.pkt e).rrType with
    | .opt => v.1 = .ar → (shown text).length+1 < dnsMsgSize
    | .txt => TxtFills env.pkt (rdEndAt env.pkt e) (rdEndAt env.pkt e-(e+10)) (e+10) →
        if rdEndAt env.pkt e = e+10 then Ends v.2 ((shown text).length+1)
        else (shown text).length+1 < dnsMsgSize
    | _ => True

theorem entered_ends {env : DecEnv} {sc : Sect} {s : DecState} {text : Bytes} {e : ℕ}
    (h : (shown text).length+1 ≤ dnsMsgSize) :
    Ends (entered env sc s text e) ((shown text).length+1) ↔ Ends s ((shown text).length+1) := by
  have hl : (shown text ++ [0]).length = (shown text).length+1 := by simp
  have hd : (patch s.dec.msg 0 (shown text ++ [0])).drop ((shown text).length+1) =
      s.dec.msg.drop ((shown text).length+1) := by
    rw [patch, hl, List.take_zero, List.nil_append, List.drop_append_of_le_length (by omega),
      List.drop_of_length_le (by omega), List.nil_append, Nat.zero_add]
  unfold Ends
  rw [← hd]
  change (0 : UInt8) ∈ (put s 0 (shown text ++ [0])).dec.msg.drop _ ↔ _
  rw [put_scratch _ _ _ (by omega)]

theorem rrTail_defined {env : DecEnv} (he : env.needEmsg = true) (hl : env.loadMsg = false)
    (sc : Sect) {h : RrHdr} {rdEnd : ℕ} {s : DecState} {name : Bytes} (hs : Shows s 0 name)
    (hw : name.length+1 ≤ dnsMsgSize) (hrd : rdEnd ≤ env.pkt.length)
    (hfits : Fits env.pkt (name.length+1) (pieces env.pkt h s.dec.offset rdEnd)) :
    Avoids isMsgRead (rrTail env sc h name.length s.dec.offset rdEnd) s ↔
      match rrKind h.rrType with
      | .opt => sc = .ar → name.length+1 < dnsMsgSize
      | .txt => TxtFills env.pkt rdEnd (rdEnd-s.dec.offset) s.dec.offset →
          if rdEnd = s.dec.offset then Ends s (name.length+1) else name.length+1 < dnsMsgSize
      | _ => True := by
  rw [rrTail_strings he hl sc h _ _ _ hs rfl (rrRdata_strings hl _ _ _ _ _ _ _)]
  by_cases ht : rrKind h.rrType = .txt
  · simp only [pieces, ht] at hfits
    simp only [rrRdata, ht]
    exact rdataTxt_terminated he hl hw hrd hfits
  by_cases ho : rrKind h.rrType = .opt
  · simp only [rrRdata, ho]
    exact rdataOpt_terminated hl hw
  refine iff_of_true (fun out t hrun _ v hv => ?_) ?_
  · obtain ⟨rfl, hends⟩ := rrRdata_terminated he hl hw hrd ht ho hrun v hv
    exact hends
  · cases hk : rrKind h.rrType <;> simp_all

structure Defined (env : DecEnv) (v : Sect × DecState) : Prop where
  inside : FixedInside env v
  fits : DescriptionFits env v
  ends : DescriptionEnds env v

def accessFrame : Frame DecState ℤ Fault where
  keep _ _ := True
  leave _ _ _ := True
  raise c := isPktRead c ∨ isMsgWrite c ∨ isMsgRead c
  refl _ := trivial
  trans _ _ := trivial
  lift _ _ := trivial

theorem accessFrame_allows : Allows 0 accessFrame where
  put _ _ _ _ := trivial
  move _ _ _ := trivial
  load _ _ _ := trivial
  err _ _ _ _ := trivial
  fail _ := trivial
  report _ _ := trivial
  reads _ := .inl trivial
  writes _ := .inr (.inl trivial)
  strings _ := .inr (.inr trivial)

theorem dnsRrDecode_strings {env : DecEnv} (he : env.needEmsg = true) (hl : env.loadMsg = false)
    {v : Sect × DecState} (hin : FixedInside env v) (hfits : DescriptionFits env v) :
    Avoids isMsgRead (dnsRrDecode env v.1) v.2 ↔ DescriptionEnds env v := by
  unfold dnsRrDecode DescriptionEnds
  rw [avoids_call]
  by_cases h : ∃ text e, Entry env v.1 v.2 text e
  · obtain ⟨text, e, h⟩ := h
    have htail := rrTail_defined he hl v.1 (entered_shows env v.1 v.2 text e h.room) h.room
      h.rdata (hfits text e h (hin text e h))
    rw [entered_offset, entered_ends h.room] at htail
    rw [Avoids, rrBody_entered h]
    refine htail.trans ⟨fun hc text' e' h' => ?_, fun hc => hc text e h⟩
    obtain ⟨rfl, rfl⟩ := h.unique h'
    exact hc
  · push Not at h
    obtain ⟨c, t, hx⟩ := rrBody_rejected h
    exact iff_of_true (avoids_of_exit hx) fun text e he => absurd he (h text e)

theorem dnsRrDecode_defined {env : DecEnv} (he : env.needEmsg = true) (hl : env.loadMsg = false)
    (v : Sect × DecState) :
    Avoids (fun _ => True) (dnsRrDecode env v.1) v.2 ↔ Defined env v := by
  constructor
  · intro h
    have hsub (P : Fault → Prop) : Avoids P (dnsRrDecode env v.1) v.2 :=
      fun c hc _ => h c hc trivial
    have hin := (dnsRrDecode_reads env v).mp (hsub _)
    have hfits := (dnsRrDecode_writes he hl v).mp (hsub _)
    exact ⟨hin, hfits, (dnsRrDecode_strings he hl hin hfits).mp (hsub _)⟩
  · rintro ⟨hin, hfits, hends⟩ c hc -
    have hbody := (call_fault _ _ _).mp hc
    rcases (keeps_rrBody accessFrame_allows env v.1 rfl (fun _ _ _ => trivial)
      fun _ => trivial).fault hbody with
      hp | hp | hp
    · exact (dnsRrDecode_reads env v).mpr hin c hc hp
    · exact (dnsRrDecode_writes he hl v).mpr hfits c hc hp
    · exact (dnsRrDecode_strings he hl hin hfits).mpr hends c hc hp

end DnsPkt.ScratchText
