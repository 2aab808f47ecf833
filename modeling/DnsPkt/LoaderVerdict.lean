import DnsPkt.AcceptedRun
import DnsPkt.PacketBounds

/-!
# What the loader makes of errors

A record or question that `dns_msg_decode` loads returns a positive number,
one that is refused puts an error on the stack and returns zero. Either way
the section that it stands in puts at most one error more on the stack and
goes on, so only a full stack makes the loader return something but zero.
-/

set_option autoImplicit false

namespace DnsPkt.LoaderVerdict
open DnsPkt.CheckedRun DnsPkt.CheckedRun.Run DnsPkt.Octets DnsPkt.Protocol
open DnsPkt.MessageStore DnsPkt.ReportText DnsPkt.RecordDecoder DnsPkt.MessageDecoder
open DnsPkt.RecordRun DnsPkt.RecordEntry DnsPkt.MessageRun DnsPkt.AcceptedRun DnsPkt.PacketBounds

section Returns

variable {env : DecEnv} (hd : env.needEmsg = false)

theorem nameField_positive (field : DnsLocation) (w : ℕ) :
    Gives (0 < ·) (nameField env field w) := by
  intro s n t h
  by_cases hw : w ≤ dnsMsgSize
  · obtain ⟨text, e, -, -, rfl, -⟩ := nameField_ok hw h
    exact shown_pos text
  · rcases nameField_over env field (Nat.lt_of_not_le hw) s with ⟨-, hx⟩ | ⟨-, c, u, hx⟩
    · rw [hx] at h
      cases h
    · rw [hx] at h
      cases h

theorem optText_pos (h : RrHdr) : 0 < (optText h).length := by
  have hlabel : (ascii "UDP-size:").length = 9 := rfl
  simp only [optText, List.length_append, hlabel]
  omega

include hd

theorem describe_eq (w : ℕ) (rc : ℤ) (text : Bytes) :
    describe env w rc text = pure (w, rc) := by
  rw [describe, hd]
  rfl

theorem describeVals_eq (vals : List (String × UInt32)) (w : ℕ) (rc : ℤ) :
    describeVals env vals w rc = pure (w, rc) := by
  induction vals with
  | nil => rfl
  | cons val rest ih =>
    rw [describeVals, describe_eq hd, pure_bind]
    exact ih

theorem describeIp_eq (start w : ℕ) (rc : ℤ) :
    describeIp env start w rc = pure ⟨rc, .empty, false⟩ := by
  rw [describeIp, hd]
  rfl

theorem strField_gives (field : DnsLocation) (label : Bytes) (rdEnd w : ℕ) (rc : ℤ)
    (load : Bytes → Dec Unit) :
    Gives (fun p => p = (w, rc)) (strField env field label rdEnd w rc load) := by
  unfold strField
  simp only [describe_eq hd, pure_bind]
  exact gives_bind fun _ => gives_bind fun _ => gives_bind fun _ => gives_bind fun _ =>
    gives_bind fun _ => gives_bind fun _ => gives_bind fun _ => gives_pure rfl

theorem txtLoop_gives (sc : Sect) (rdEnd k w : ℕ) (rc : ℤ) :
    Gives (fun p => p = (w, rc)) (txtLoop env sc rdEnd k w rc) := by
  induction k with
  | zero => exact gives_pure rfl
  | succ k ih =>
    unfold txtLoop
    refine gives_bind fun off => ?_
    split
    · refine (strField_gives hd .txt _ rdEnd w rc _).bind fun p hp => ?_
      rw [hp]
      exact ih
    · exact gives_pure rfl

theorem rrRdata_positive (sc : Sect) (h : RrHdr) (w start rdEnd : ℕ) {rc : ℤ} (hrc : 0 < rc) :
    Gives (fun out => 0 < out.rc) (rrRdata env sc h w start rdEnd rc) := by
  have hname (field : DnsLocation) (f : ℕ → Ptr → Rdata Ptr → Rdata Ptr) :
      Gives (fun out => 0 < out.rc) (rdataName env sc field f w) :=
    (nameField_positive field w).bind fun n hn => gives_bind fun _ =>
      gives_pure (Int.natCast_pos.mpr hn)
  have hskip : Gives (fun out => 0 < out.rc) (rdataSkip h rc) :=
    gives_bind fun _ => gives_pure hrc
  unfold rrRdata
  cases rrKind h.rrType with
  | a =>
    simp only [rdataA, describeIp_eq hd]
    exact gives_bind fun _ => gives_bind fun _ => gives_bind fun _ => gives_pure hrc
  | ns => exact hname _ _
  | cname => exact hname _ _
  | soa =>
    simp only [rdataSoa, describe_eq hd, describeVals_eq hd, pure_bind]
    refine (nameField_positive .soa w).bind fun n1 _ => gives_bind fun _ => ?_
    refine (nameField_positive .soa (w+n1)).bind fun n2 hn2 => ?_
    exact gives_bind fun _ => gives_bind fun _ => gives_bind fun _ => gives_bind fun _ =>
      gives_bind fun _ => gives_bind fun _ => gives_pure (Int.natCast_pos.mpr hn2)
  | ptr => exact hname _ _
  | hinfo =>
    unfold rdataHinfo
    refine gives_bind fun _ => (strField_gives hd .hinfo _ rdEnd w rc _).bind fun p hp => ?_
    rw [hp]
    refine gives_bind fun off => gives_bind fun _ => ?_
    refine (strField_gives hd .hinfo _ rdEnd w rc _).bind fun p hp => ?_
    rw [hp]
    exact gives_pure hrc
  | mx =>
    simp only [rdataMx, describe_eq hd, pure_bind]
    refine gives_bind fun _ => gives_bind fun _ => gives_bind fun _ => ?_
    exact (nameField_positive .mx w).bind fun n hn => gives_bind fun _ => gives_bind fun _ =>
      gives_pure (Int.natCast_pos.mpr hn)
  | txt =>
    refine (txtLoop_gives hd sc rdEnd (rdEnd-start) w rc).bind fun p hp => ?_
    rw [hp]
    exact gives_pure hrc
  | aaaa =>
    simp only [rdataAaaa, describeIp_eq hd]
    exact gives_bind fun _ => gives_bind fun _ => gives_bind fun _ => gives_pure hrc
  | srv =>
    simp only [rdataSrv, describe_eq hd, pure_bind]
    refine gives_bind fun _ => gives_bind fun _ => gives_bind fun _ => ?_
    exact (nameField_positive .srv w).bind fun n hn => gives_bind fun _ => gives_bind fun _ =>
      gives_pure (Int.natCast_pos.mpr hn)
  | opt =>
    refine gives_bind fun _ => gives_bind fun _ => gives_bind fun _ => ?_
    refine Gives.bind (R := fun n => n = (optText h).length) ?_ fun n hn => ?_
    · exact gives_bind fun _ => gives_pure rfl
    · refine gives_bind fun _ => gives_pure (Int.natCast_pos.mpr ?_)
      rw [hn]
      exact optText_pos h
  | any => exact hskip
  | other => exact hskip

theorem rrBody_positive (sc : Sect) : Gives (0 < ·) (rrBody env sc) := by
  have hname : Gives (0 < ·) (rrName env sc) :=
    (nameField_positive .name 0).bind fun n hn => gives_bind fun _ => gives_pure hn
  refine gives_bind fun _ => hname.bind fun n hn => gives_bind fun h => gives_bind fun start =>
    gives_bind fun _ => ?_
  refine (rrRdata_positive hd sc h _ start _ (Int.natCast_pos.mpr hn)).bind fun out hout => ?_
  refine gives_bind fun _ => gives_bind fun _ => gives_bind fun _ => ?_
  rw [rrReport, hd]
  exact gives_pure hout

theorem qdBody_positive : Gives (0 < ·) (qdBody env) := by
  refine gives_bind fun _ => Gives.bind (R := fun n => 0 < n) ?_ fun n hn => ?_
  · intro s n t h
    obtain ⟨text, e, -, -, rfl, -⟩ := qdName_ok h
    exact Nat.succ_pos _
  · refine gives_bind fun p => gives_bind fun _ => ?_
    rw [hd]
    exact gives_pure (Int.natCast_pos.mpr hn)

end Returns

def notPktRead (c : Fault) : Prop := ¬ isPktRead c

section Accesses

variable {env : DecEnv} {s : DecState} (hl : env.loadMsg = true) (hd : env.needEmsg = false)

theorem readBytes_scratch (i n : ℕ) : Avoids notPktRead (readBytes env i n) s :=
  (readBytes_avoids env i n _ s).mpr (.inr (.inr (not_not.mpr trivial)))

theorem when_avoids {p : Prop} [Decidable p] {x : Dec Unit} (h : Avoids notPktRead x s) :
    Avoids notPktRead (when p x) s := (avoids_when _ _ _).mpr fun _ => h

theorem retErr_avoids {α : Type} (group field : DnsLocation) (ec : ℤ) :
    Avoids notPktRead (retErr group field ec : Dec α) s := avoids_of_exit rfl

theorem shows_of_dec {t : DecState} {w : ℕ} {b : Bytes} (heq : t.dec = s.dec) (h : Shows s w b) :
    Shows t w b := by
  rw [Shows, heq]
  exact h

theorem modifySlot_dec {sc : Sect} {f : ℕ → DnsRr Ptr → DnsRr Ptr} {t : DecState} {u : Unit}
    (h : modifySlot sc f s = .ok u t) : t.dec = s.dec := by
  cases h
  rfl

include hl in
theorem loadName_scratch (sc : Sect) {w : ℕ} {b : Bytes} (h : Shows s w b)
    (f : ℕ → Ptr → DnsRr Ptr → DnsRr Ptr) : Avoids notPktRead (loadName env sc w f) s := by
  rw [Avoids, loadName_run hl h]
  exact loadStr_avoids sc _ f _ s

/-- A name at a cursor inside the buffer and what is done with it. -/
theorem nameField_scratch {α : Type} (field : DnsLocation) {w : ℕ} (hw : w ≤ dnsMsgSize)
    {f : ℕ → Dec α} (hf : ∀ n t b, w+n+1 ≤ dnsMsgSize → Shows t w b → Avoids notPktRead (f n) t) :
    Avoids notPktRead (nameField env field w >>= f) s := by
  refine avoids_seq (nameField_avoids env field hw _ s) fun n t h => ?_
  obtain ⟨text, e, -, hfit, rfl, rfl⟩ := nameField_ok hw h
  exact hf _ _ (shown text) hfit (shows_put s hfit)

include hd in
theorem strField_scratch (field : DnsLocation) (label : Bytes) (rdEnd w : ℕ) (rc : ℤ)
    {load : Bytes → Dec Unit} (hload : ∀ b t, Avoids notPktRead (load b) t) :
    Avoids notPktRead (strField env field label rdEnd w rc load) s := by
  unfold strField
  simp only [describe_eq hd, pure_bind]
  refine avoids_seq (avoids_of_ok (getOffset_run s)) fun off t _ => ?_
  refine avoids_seq (readBytes_scratch off 1) fun b t _ => ?_
  refine avoids_seq (avoids_modify _ t) fun _ t _ => ?_
  refine avoids_seq (when_avoids (retErr_avoids _ _ _)) fun _ t _ => ?_
  refine avoids_seq (readBytes_scratch _ _) fun str t _ => ?_
  exact avoids_seq (when_avoids (hload str t)) fun _ t _ =>
    avoids_seq (avoids_modify _ t) fun _ _ _ => avoids_pure _ _

include hd in
theorem txtLoop_scratch (sc : Sect) (rdEnd k w : ℕ) (rc : ℤ) :
    Avoids notPktRead (txtLoop env sc rdEnd k w rc) s := by
  induction k generalizing w rc s with
  | zero => exact avoids_pure _ _
  | succ k ih =>
    unfold txtLoop
    refine avoids_seq (avoids_of_ok (getOffset_run s)) fun off t _ => ?_
    split
    · exact avoids_seq (strField_scratch hd _ _ _ _ _ fun b t => loadTxt_avoids sc b _ t)
        fun p t _ => ih p.1 p.2
    · exact avoids_pure _ _

include hl hd in
theorem rrRdata_scratch (sc : Sect) (h : RrHdr) {w : ℕ} (start rdEnd : ℕ) (rc : ℤ)
    (hw : w ≤ dnsMsgSize) {name : Bytes} (hs : Shows s 0 name) :
    Avoids notPktRead (rrRdata env sc h w start rdEnd rc) s := by
  have hname (field : DnsLocation) (f : ℕ → Ptr → Rdata Ptr → Rdata Ptr) :
      Avoids notPktRead (rdataName env sc field f w) s :=
    nameField_scratch field hw fun n t b _ hb =>
      avoids_seq (loadName_scratch hl sc hb _) fun _ _ _ => avoids_pure _ _
  have hskip : Avoids notPktRead (rdataSkip h rc) s :=
    avoids_seq (avoids_modify _ s) fun _ _ _ => avoids_pure _ _
  have hnamed (field : DnsLocation) (vals : Rdata Ptr → Rdata Ptr)
      (f : ℕ → Ptr → DnsRr Ptr → DnsRr Ptr) (t : DecState) :
      Avoids notPktRead (nameField env field w >>= fun n => loadRdata env sc vals >>= fun _ =>
        loadName env sc w f >>= fun _ => pure (⟨n, .scratch w, false⟩ : RdataOut)) t := by
    refine nameField_scratch field hw fun n t b _ hb => ?_
    refine avoids_seq (loadRdata_avoids env sc vals _ t) fun _ u hu => ?_
    rw [loadRdata, when_pos hl] at hu
    have hb' : Shows u w b := shows_of_dec (modifySlot_dec hu) hb
    exact avoids_seq (loadName_scratch hl sc hb' _) fun _ _ _ => avoids_pure _ _
  unfold rrRdata
  cases rrKind h.rrType with
  | a =>
    simp only [rdataA, describeIp_eq hd]
    refine avoids_seq (when_avoids (retErr_avoids _ _ _)) fun _ t _ => ?_
    refine avoids_seq (when_avoids ?_) fun _ t _ =>
      avoids_seq (avoids_modify _ t) fun _ _ _ => avoids_pure _ _
    exact avoids_seq (readBytes_scratch _ _) fun b t _ => loadRdata_avoids env sc _ _ t
  | ns => exact hname _ _
  | cname => exact hname _ _
  | soa =>
    simp only [rdataSoa, describe_eq hd, describeVals_eq hd, pure_bind]
    refine nameField_scratch .soa hw fun n1 t b hfit hb => ?_
    refine avoids_seq (loadName_scratch hl sc hb _) fun _ t _ => ?_
    refine nameField_scratch .soa (by omega) fun n2 t b _ hb => ?_
    refine avoids_seq (when_avoids ?_) fun _ t _ => ?_
    · rw [avoids_bind_of_ok hb.msgStr]
      exact avoids_seq (storeInto_avoids sc _ _ _ t) fun _ _ _ => avoids_pure _ _
    refine avoids_seq (avoids_of_ok (getOffset_run t)) fun off t _ => ?_
    refine avoids_seq (when_avoids (retErr_avoids _ _ _)) fun _ t _ => ?_
    refine avoids_seq (readBytes_scratch _ _) fun b t _ => ?_
    exact avoids_seq (avoids_modify _ t) fun _ t _ =>
      avoids_seq (loadRdata_avoids env sc _ _ t) fun _ _ _ => avoids_pure _ _
  | ptr => exact hname _ _
  | hinfo =>
    unfold rdataHinfo
    refine avoids_seq (when_avoids (retErr_avoids _ _ _)) fun _ t _ => ?_
    refine avoids_seq (strField_scratch hd _ _ _ _ _ fun b t => loadStr_avoids sc b _ _ t)
      fun p t _ => ?_
    refine avoids_seq (avoids_of_ok (getOffset_run t)) fun off t _ => ?_
    refine avoids_seq (when_avoids (retErr_avoids _ _ _)) fun _ t _ => ?_
    exact avoids_seq (strField_scratch hd _ _ _ _ _ fun b t => loadStr_avoids sc b _ _ t)
      fun _ _ _ => avoids_pure _ _
  | mx =>
    simp only [rdataMx, describe_eq hd, pure_bind]
    refine avoids_seq (when_avoids (retErr_avoids _ _ _)) fun _ t _ => ?_
    exact avoids_seq (readBytes_scratch _ _) fun b t _ =>
      avoids_seq (avoids_modify _ t) fun _ t _ => hnamed _ _ _ t
  | txt => exact avoids_seq (txtLoop_scratch hd sc _ _ _ _) fun _ _ _ => avoids_pure _ _
  | aaaa =>
    simp only [rdataAaaa, describeIp_eq hd]
    refine avoids_seq (when_avoids (retErr_avoids _ _ _)) fun _ t _ => ?_
    refine avoids_seq (avoids_modify _ t) fun _ t _ => ?_
    refine avoids_seq (when_avoids ?_) fun _ t _ => avoids_pure _ _
    exact avoids_seq (readBytes_scratch _ _) fun b t _ => loadRdata_avoids env sc _ _ t
  | srv =>
    simp only [rdataSrv, describe_eq hd, pure_bind]
    refine avoids_seq (when_avoids (retErr_avoids _ _ _)) fun _ t _ => ?_
    exact avoids_seq (readBytes_scratch _ _) fun b t _ =>
      avoids_seq (avoids_modify _ t) fun _ t _ => hnamed _ _ _ t
  | opt =>
    unfold rdataOpt
    by_cases hsc : sc = .ar
    · rw [when_neg (not_not.mpr hsc), avoids_bind_of_ok (pure_run _ s), when_pos hl]
      refine avoids_seq ?_ fun _ t _ => ?_
      · refine avoids_seq (avoids_modify _ s) fun _ t ht => ?_
        rw [avoids_bind_of_ok (shows_of_dec (modifySlot_dec ht) hs).msgStr]
        exact loadStr_avoids sc _ _ _ t
      · refine avoids_seq (avoids_get t) fun _ t _ => ?_
        rw [avoids_bind_of_ok (snprintf_run hw _ t)]
        exact avoids_seq (avoids_modify _ _) fun _ _ _ => avoids_pure _ _
    · rw [when_pos hsc]
      exact avoids_of_exit rfl
  | any => exact hskip
  | other => exact hskip

include hl hd in
theorem rrTail_scratch (sc : Sect) (h : RrHdr) {name : Bytes} (rdEnd : ℕ)
    (hw : name.length+1 ≤ dnsMsgSize) (hs : Shows s 0 name) :
    Avoids notPktRead (rrTail env sc h name.length s.dec.offset rdEnd) s := by
  refine avoids_seq (rrRdata_scratch hl hd sc h _ _ _ hw hs) fun out t _ => ?_
  refine avoids_seq (avoids_of_ok (getOffset_run t)) fun off t _ => ?_
  refine avoids_seq (when_avoids (retErr_avoids _ _ _)) fun _ t _ => ?_
  refine avoids_seq (when_avoids (avoids_modify _ t)) fun _ t _ => ?_
  rw [rrReport, hd]
  exact avoids_pure _ _

include hl hd in
theorem dnsRrDecode_defined (v : Sect × DecState) :
    Avoids (fun _ => True) (dnsRrDecode env v.1) v.2 ↔ FixedInside env v := by
  have hscratch : Avoids notPktRead (dnsRrDecode env v.1) v.2 := by
    refine (avoids_call _ _).mpr ?_
    by_cases h : ∃ text e, Entry env v.1 v.2 text e
    · obtain ⟨text, e, h⟩ := h
      rw [Avoids, rrBody_entered h]
      exact rrTail_scratch hl hd v.1 _ _ h.room (entered_shows env v.1 v.2 text e h.room)
    · push Not at h
      obtain ⟨c, t, hx⟩ := rrBody_rejected h
      exact avoids_of_exit hx
  rw [← dnsRrDecode_reads]
  constructor
  · exact fun h c hc _ => h c hc trivial
  · exact fun h c hc _ => hscratch c hc (h c hc)

end Accesses

/-- A part of a run that comes to `k` entries: each put an error on the stack and the part
returns zero, or the stack was too small and it does not. -/
def Counts (s : DecState) (k : ℕ) (c : ℤ) (t : DecState) : Prop :=
  (c = 0 ∧ t.dec.errs.length = s.dec.errs.length+k ∧ t.dec.errs.length ≤ dnsMaxEmsg) ∨
    (c ≠ 0 ∧ dnsMaxEmsg < s.dec.errs.length+k)

section Counting

variable {s t u : DecState} {j k : ℕ} {c : ℤ}

theorem counts_zero (h : s.dec.errs.length ≤ dnsMaxEmsg) : Counts s 0 0 s := .inl ⟨rfl, rfl, h⟩

theorem Counts.room (h : Counts s k 0 t) : t.dec.errs.length ≤ dnsMaxEmsg := by
  rcases h with ⟨-, -, h⟩ | ⟨h, -⟩
  · exact h
  · exact absurd rfl h

theorem Counts.trans (h1 : Counts s j 0 t) (h2 : Counts t k c u) : Counts s (j+k) c u := by
  rcases h1 with ⟨-, hlen, -⟩ | ⟨h, -⟩
  · rw [Counts, ← Nat.add_assoc, ← hlen]
    exact h2
  · exact absurd rfl h

theorem counts_err (group field : DnsLocation) (ec : ℤ) :
    Counts s 1 (dnsDecErr group field ec s).1 (dnsDecErr group field ec s).2 := by
  unfold dnsDecErr
  split
  · next hfull => exact .inr ⟨show decErr ≠ 0 by decide, Nat.lt_succ_of_le hfull⟩
  · next hfree =>
    refine .inl ⟨rfl, List.length_append, ?_⟩
    rw [List.length_append]
    exact Nat.not_le.mp hfree

section Rows

variable {x : Dec ℤ} (hx : Keeps errFrame x) (hpos : Gives (0 < ·) x) (loc : DnsLocation)

include hx hpos in
theorem rowStep_counts {i : ℕ} :
    (∀ a, rowStep (call x) loc i s = .ok a t → Counts s 1 0 t) ∧
      (∀ c, rowStep (call x) loc i s = .exit c t → Counts s 1 c t) := by
  have hreturns (rc : ℤ) (m : DecState) (hm : (call x : Dec ℤ) s = .ok rc m) :
      (rc = 0 ∧ Counts s 1 0 m) ∨ (rc ≠ 0 ∧ m.dec.errs = s.dec.errs) := by
    rcases (call_ok _ _ _ _).mp hm with h | h
    · exact .inr ⟨(hpos s rc m h).ne', (hx.ok h).1⟩
    · rcases (hx.exit h).2 with ⟨rfl, hlt, err, he⟩ | ⟨rfl, he⟩
      · refine .inl ⟨rfl, .inl ⟨rfl, ?_, ?_⟩⟩
        · rw [he, List.length_append, List.length_singleton]
        · rw [he, List.length_append, List.length_singleton]
          exact hlt
      · exact .inr ⟨by decide, he⟩
  constructor
  · intro a h
    rcases hreturns 0 t (rowStep_ok.mp h) with ⟨-, hcounts⟩ | ⟨hne, -⟩
    · exact hcounts
    · exact absurd rfl hne
  · intro c h
    rcases (bind_exit _ _ _ _ _).mp h with h | ⟨rc, m, hm, h⟩
    · exact absurd h (call_ne_exit _ _ _ _)
    rcases hreturns rc m hm with ⟨rfl, -⟩ | ⟨hne, he⟩
    · cases h
    · rw [when_pos hne] at h
      have hcounts := counts_err (s := m) .pdu loc (i+dnsEcIsrow)
      cases h
      rw [Counts, ← he]
      exact hcounts

include hx hpos in
theorem loop_counts (i n : ℕ) (hroom : s.dec.errs.length ≤ dnsMaxEmsg) :
    (∀ a, loop (rowStep (call x) loc) i n s = .ok a t →
        Counts s (visits (rowStep (call x) loc) i n s).length 0 t) ∧
      (∀ c, loop (rowStep (call x) loc) i n s = .exit c t →
        Counts s (visits (rowStep (call x) loc) i n s).length c t) := by
  induction n generalizing i s with
  | zero =>
    constructor
    · intro a h
      cases h
      exact counts_zero hroom
    · intro c h
      cases h
  | succ n ih =>
    cases hstep : rowStep (call x) loc i s with
    | ok a m =>
      have hone := (rowStep_counts hx hpos loc).1 a hstep
      rw [loop_succ_of_ok hstep, visits_succ_of_ok hstep, List.length_cons,
        Nat.add_comm (List.length _)]
      constructor
      · exact fun a h => hone.trans ((ih (i+1) hone.room).1 a h)
      · exact fun c h => hone.trans ((ih (i+1) hone.room).2 c h)
    | exit e m =>
      have hone := (rowStep_counts hx hpos loc).2 e hstep
      have hloop : loop (rowStep (call x) loc) i (n+1) s = .exit e m := bind_of_exit hstep _
      rw [hloop, visits, hstep]
      constructor
      · intro a h
        cases h
      · intro c h
        cases h
        exact hone
    | fault d =>
      have hloop : loop (rowStep (call x) loc) i (n+1) s = .fault d := bind_of_fault hstep _
      rw [hloop]
      constructor
      · intro a h
        cases h
      · intro c h
        cases h

include hx hpos in
theorem rows_counts {n : ℕ} (hroom : s.dec.errs.length ≤ dnsMaxEmsg)
    (h : rows (call x) loc n s = .ok c t) :
    Counts s (visits (rowStep (call x) loc) 0 n s).length c t := by
  rcases (call_ok _ _ _ _).mp h with h | h
  · obtain ⟨a, m, hl, h⟩ := (bind_ok _ _ _ _ _).mp h
    cases h
    exact (loop_counts hx hpos loc 0 n hroom).1 a hl
  · rcases (bind_exit _ _ _ _ _).mp h with h | ⟨a, m, -, h⟩
    · exact (loop_counts hx hpos loc 0 n hroom).2 c h
    · cases h

end Rows

theorem orReturn_exit {x : Dec ℤ} (hx : ∀ e, x s ≠ .exit e t) (h : orReturn x s = .exit c t) :
    x s = .ok c t := by
  rcases (bind_exit _ _ _ _ _).mp h with h | ⟨rc, m, hm, h⟩
  · exact absurd h (hx c)
  · by_cases hrc : rc ≠ 0
    · rw [when_pos hrc] at h
      cases h
      exact hm
    · rw [when_neg hrc] at h
      cases h

variable {env : DecEnv} (hd : env.needEmsg = false)

include hd

theorem decodeSect_counts {sc : Sect} (hroom : s.dec.errs.length ≤ dnsMaxEmsg)
    (h : decodeSect env sc s = .ok c t) : Counts s (sectVisits env sc s).length c t := by
  rw [decodeSect, bind_of_ok (get_run s)] at h
  rw [sectVisits, List.length_map]
  exact rows_counts (rrBody_errs env sc) (rrBody_positive hd sc) (Sect.loc sc) hroom h

theorem decodeSects_counts (scs : List Sect) (hroom : s.dec.errs.length ≤ dnsMaxEmsg) :
    (∀ a, decodeSects env scs s = .ok a t → Counts s (sectsVisits env scs s).length 0 t) ∧
      (∀ c, decodeSects env scs s = .exit c t → Counts s (sectsVisits env scs s).length c t) := by
  induction scs generalizing s with
  | nil =>
    constructor
    · intro a h
      cases h
      exact counts_zero hroom
    · intro c h
      cases h
  | cons sc rest ih =>
    cases hsect : orReturn (decodeSect env sc) s with
    | ok a m =>
      have hone := decodeSect_counts hd hroom (orReturn_ok.mp hsect)
      rw [decodeSects, bind_of_ok hsect, sectsVisits, hsect, List.length_append]
      constructor
      · exact fun a h => hone.trans ((ih hone.room).1 a h)
      · exact fun c h => hone.trans ((ih hone.room).2 c h)
    | exit e m =>
      have hone := decodeSect_counts hd hroom
        (orReturn_exit (fun e => decodeSect_ne_exit env sc s m e) hsect)
      rw [decodeSects, bind_of_exit hsect, sectsVisits, hsect, List.append_nil]
      constructor
      · intro a h
        cases h
      · intro c h
        cases h
        exact hone
    | fault d =>
      rw [decodeSects, bind_of_fault hsect]
      constructor
      · intro a h
        cases h
      · intro c h
        cases h

end Counting

def questionVisits (env : DecEnv) (m : DnsMsg) : List DecState :=
  match orReturn (decodeHdr env) (initState (dnsMsgReset m)) with
  | .ok _ t => (visits (rowStep (dnsQdDecode env) .qd) 0 t.msg.hdr.qdCount.toNat t).map Prod.snd
  | _ => []

/-- A message without records is left after its empty sections. -/
theorem sectsVisits_empty {env : DecEnv} (scs : List Sect) {s : DecState}
    (h : ∀ sc, sectCount s.msg.hdr sc = 0) : sectsVisits env scs s = [] := by
  induction scs with
  | nil => rfl
  | cons sc rest ih =>
    have hrun : decodeSect env sc s = .ok 0 s := by
      rw [decodeSect, bind_of_ok (get_run s), h sc]
      rfl
    have hvisits : sectVisits env sc s = [] := by
      rw [sectVisits, h sc]
      rfl
    rw [sectsVisits, hvisits, (orReturn_ok (u := ())).mpr hrun, List.nil_append]
    exact ih

section Verdict

variable (pkt : Bytes) (m : DnsMsg)

theorem decodeHdr_short (h : (loadEnv pkt).pkt.length < dnsHdrLen) :
    decodeHdr (loadEnv pkt) (initState (dnsMsgReset m)) =
      .ok 0 (dnsDecErr .pdu .hdr DnsEc.ehdrlen.code (initState (dnsMsgReset m))).2 := by
  refine (call_ok _ _ _ _).mpr (.inr (bind_of_exit ?_ _))
  rw [when_pos h]
  rfl

def headed : DecState :=
  { moveTo (initState (dnsMsgReset m)) dnsHdrLen with
    msg := { dnsMsgReset m with hdr := hdrOf pkt } }

theorem decodeHdr_load (h : dnsHdrLen ≤ (loadEnv pkt).pkt.length) :
    decodeHdr (loadEnv pkt) (initState (dnsMsgReset m)) = .ok 0 (headed pkt m) := by
  refine (call_ok _ _ _ _).mpr (.inr ?_)
  unfold hdrBody
  rw [bind_when_neg (Nat.not_lt.mpr h),
    bind_of_ok (readBytes_run (loadEnv pkt) (i := 0) (n := dnsHdrLen) (.inr (by omega)) _)]
  rfl

variable {pkt m} {s : DecState}
  (hs : decodeHdr (loadEnv pkt) (initState (dnsMsgReset m)) = .ok 0 s)

include hs

theorem decodeFront_load :
    decodeFront (loadEnv pkt) (initState m) = orReturn (decodeQd (loadEnv pkt)) s :=
  bind_of_ok ((orReturn_ok (u := ())).mpr hs) _

theorem questionVisits_load : (questionVisits (loadEnv pkt) m).length =
    (visits (rowStep (dnsQdDecode (loadEnv pkt)) .qd) 0 s.msg.hdr.qdCount.toNat s).length := by
  rw [questionVisits, (orReturn_ok (u := ())).mpr hs, List.length_map]

theorem dnsMsgDecode_counts (hroom : s.dec.errs.length ≤ dnsMaxEmsg) {c : ℤ} {t : DecState}
    (h : dnsMsgDecode m pkt = .ok c t) : ∃ u, Counts s
      ((questionVisits (loadEnv pkt) m).length+(recordVisits (loadEnv pkt) m).length) c u := by
  have hquest (e : ℤ) (u : DecState) (hq : decodeQd (loadEnv pkt) s = .ok e u) :
      Counts s (questionVisits (loadEnv pkt) m).length e u := by
    rw [decodeQd, bind_of_ok (get_run s)] at hq
    rw [questionVisits_load hs]
    exact rows_counts (qdBody_errs _) (qdBody_positive rfl) .qd hroom hq
  rw [recordVisits, decodeFront_load hs]
  have hrun := (call_ok _ _ _ _).mp h
  rw [bind_ok, bind_exit, decodeFront_load hs] at hrun
  cases hq : orReturn (decodeQd (loadEnv pkt)) s with
  | ok a u =>
    have hone := hquest 0 u (orReturn_ok.mp hq)
    rw [hq] at hrun
    rcases hrun with ⟨a, v, hv, hrun⟩ | hrun | ⟨a, v, hv, hrun⟩
    · cases hv
      obtain ⟨a, v, hsects, hrun⟩ := (bind_ok _ _ _ _ _).mp hrun
      cases hrun
      exact ⟨_, hone.trans ((decodeSects_counts rfl _ hone.room).1 a hsects)⟩
    · cases hrun
    · cases hv
      rcases (bind_exit _ _ _ _ _).mp hrun with hsects | ⟨a, v, -, hrun⟩
      · exact ⟨_, hone.trans ((decodeSects_counts rfl _ hone.room).2 c hsects)⟩
      · exact absurd hrun (sizeCheck_ne_exit _ _ _ _)
  | exit e u =>
    have hone := hquest e u (orReturn_exit (fun e => by
      rw [decodeQd, bind_of_ok (get_run s)]
      exact call_ne_exit _ _ _ _) hq)
    rw [hq] at hrun
    rcases hrun with ⟨a, v, hv, -⟩ | hrun | ⟨a, v, hv, -⟩
    · cases hv
    · cases hrun
      exact ⟨_, hone⟩
    · cases hv
  | fault d =>
    rw [hq] at hrun
    rcases hrun with ⟨a, v, hv, -⟩ | hrun | ⟨a, v, hv, -⟩
    · cases hv
    · cases hrun
    · cases hv

omit hs

/-- The loader returns zero as long as the stack has room for the entries it comes to. -/
theorem dnsMsgDecode_nonzero {c : ℤ} {t : DecState} (h : dnsMsgDecode m pkt = .ok c t) :
    c ≠ 0 ↔ dnsMaxEmsg <
      (questionVisits (loadEnv pkt) m).length+(recordVisits (loadEnv pkt) m).length := by
  by_cases hshort : pkt.length < dnsHdrLen
  · have hs := decodeHdr_short pkt m hshort
    have hquest : (questionVisits (loadEnv pkt) m).length = 0 := by
      rw [questionVisits_load hs]
      rfl
    have hrec : recordVisits (loadEnv pkt) m = [] := by
      have hfront := decodeFront_load hs
      rw [recordVisits, hfront]
      exact sectsVisits_empty _ fun sc => by cases sc <;> rfl
    have hlen : (dnsDecErr .pdu .hdr DnsEc.ehdrlen.code
      (initState (dnsMsgReset m))).2.dec.errs.length = 1 := rfl
    obtain ⟨u, hcounts⟩ := dnsMsgDecode_counts hs (by rw [hlen]; decide) h
    rw [hquest, hrec] at hcounts ⊢
    rcases hcounts with ⟨hc, -⟩ | ⟨-, hlt⟩
    · exact iff_of_false (not_not.mpr hc) (by decide)
    · exact absurd hlt (show ¬ dnsMaxEmsg < 1+0 by decide)
  · obtain ⟨u, hcounts⟩ := dnsMsgDecode_counts (decodeHdr_load pkt m (Nat.not_lt.mp hshort))
      (Nat.zero_le _) h
    rcases hcounts with ⟨hc, hlen, hroom⟩ | ⟨hc, hlt⟩
    · refine iff_of_false (not_not.mpr hc) (Nat.not_lt.mpr ?_)
      rw [hlen] at hroom
      exact (Nat.le_add_left _ _).trans hroom
    · refine iff_of_true hc ?_
      rwa [show (headed pkt m).dec.errs.length = 0 from rfl, Nat.zero_add] at hlt

/-- An error that `dns_hdr_decode`, `dns_qd_decode` or `dns_rr_decode` finds in the format. -/
def FormatErr (err : DnsErr) : Prop :=
  err.group = .qd ∨ err.group = .rr ∨
    (err.group = .pdu ∧ err.field = .hdr ∧ err.ec = DnsEc.ehdrlen.code)

/-- `dns_validate` records an error in the format of the packet. -/
def Reports (pkt : Bytes) (emsgLen : ℕ) : Prop :=
  ∃ rc t, dnsValidate pkt emsgLen = .ok rc t ∧ ∃ err ∈ t.dec.errs, FormatErr err

def Rejects (m : DnsMsg) (pkt : Bytes) : Prop :=
  ∃ rc t, dnsMsgDecode m pkt = .ok rc t ∧ rc ≠ 0

theorem loadEnv_loads (pkt : Bytes) : (loadEnv pkt).loadMsg = true := rfl

theorem loadEnv_quiet (pkt : Bytes) : (loadEnv pkt).needEmsg = false := rfl

/-- The loader comes to more questions and records than its stack holds errors. -/
def Overflows (m : DnsMsg) (pkt : Bytes) : Prop :=
  dnsMaxEmsg < (questionVisits (loadEnv pkt) m).length+(recordVisits (loadEnv pkt) m).length

theorem dnsMsgDecode_defined (m : DnsMsg) (pkt : Bytes) :
    (∃ rc t, dnsMsgDecode m pkt = .ok rc t) ↔
      ∀ v ∈ recordVisits (loadEnv pkt) m, FixedInside (loadEnv pkt) v := by
  have hdefined := decodeMsg_avoids (loadEnv pkt) m fun _ => True
  simp only [dnsRrDecode_defined (loadEnv_loads pkt) (loadEnv_quiet pkt)] at hdefined
  rw [← hdefined]
  constructor
  · rintro ⟨rc, t, h⟩
    exact avoids_of_ok h
  · intro h
    cases hrun : dnsMsgDecode m pkt with
    | ok rc t => exact ⟨rc, t, rfl⟩
    | exit rc t => exact absurd hrun (call_ne_exit _ _ _ _)
    | fault c => exact absurd trivial (h c hrun)

theorem rejects_iff (m : DnsMsg) (pkt : Bytes) : Rejects m pkt ↔
    Overflows m pkt ∧ ∀ v ∈ recordVisits (loadEnv pkt) m, FixedInside (loadEnv pkt) v := by
  rw [← dnsMsgDecode_defined]
  constructor
  · rintro ⟨rc, t, h, hrc⟩
    exact ⟨(dnsMsgDecode_nonzero h).mp hrc, rc, t, h⟩
  · rintro ⟨hover, rc, t, h⟩
    exact ⟨rc, t, h, (dnsMsgDecode_nonzero h).mpr hover⟩

/-- Only packets that the validator has nothing against in their format, and those that fill
the error stack, are treated by the loader as the validator treats them. -/
theorem loader_rejects_iff (pkt : Bytes) (emsgLen : ℕ) (m : DnsMsg) :
    (Reports pkt emsgLen → Rejects m pkt) ↔ (¬ Reports pkt emsgLen ∨ (Overflows m pkt ∧
      ∀ v ∈ recordVisits (loadEnv pkt) m, FixedInside (loadEnv pkt) v)) := by
  rw [rejects_iff, imp_iff_not_or]

end Verdict

/-- A response whose answer is an `A` record with three bytes of address. -/
def shortAddrPkt : Bytes := responseHdr 1 0 0 ++ [0, 0, 1, 0, 1, 0, 0, 0, 0, 0, 3, 1, 2, 3]

theorem short_address_loaded :
    Reports shortAddrPkt 1000 ∧ ¬ Rejects (zeroMsg 0) shortAddrPkt := by
  constructor
  · have hrun : (dnsValidate shortAddrPkt 1000).result.map (fun p => p.2.dec.errs.head?) =
        some (some ⟨.rr, .a, DnsEc.erdatalen.code⟩) := by decide +kernel
    obtain ⟨rc, t, h, herr⟩ := Outcome.eq_ok hrun
    exact ⟨rc, t, h, _, List.mem_of_head? herr, .inr (.inl rfl)⟩
  · rintro ⟨rc, t, h, hrc⟩
    have hrun : (dnsMsgDecode (zeroMsg 0) shortAddrPkt).result.map (fun p => p.1) =
        some 0 := by decide +kernel
    rw [h] at hrun
    exact hrc (Option.some.inj hrun)

end DnsPkt.LoaderVerdict
