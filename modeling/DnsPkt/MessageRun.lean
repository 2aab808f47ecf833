import DnsPkt.RecordEntry

/-!
# Faults of a whole run come from record decodes

The header, the questions, the size check and the error report have no
undefined access, whatever the packet. So a run is free of a class of faults
exactly when each of its record decodes is.
-/

set_option autoImplicit false

namespace DnsPkt.MessageRun
open DnsPkt.CheckedRun DnsPkt.CheckedRun.Run DnsPkt.Octets DnsPkt.Protocol
open DnsPkt.MessageStore DnsPkt.NameDecoder DnsPkt.RecordDecoder DnsPkt.MessageDecoder
open DnsPkt.RecordRun

theorem qdName_run (env : DecEnv) {e : ℕ} {text : Bytes} {s : DecState}
    (hn : NameAt env.pkt s.dec.offset text e) (hw : text.length+1 ≤ dnsMsgSize) :
    qdName env s = .ok (text.length+1) (moveTo (put s 0 (text ++ [0])) e) := by
  obtain ⟨j, ls, hr, hj, he⟩ := hn
  have hd := (decodeName_ok_iff env.pkt s.dec.offset dnsMsgSize (text.length+1) e
    (text ++ [0])).mpr ⟨j, ls, text, hr, hj, by omega, rfl, rfl, he⟩
  obtain ⟨r, hr', -, hrun⟩ := decodeNameAt_run env (w := 0) (Nat.zero_le _) s
  obtain rfl : r = _ := Except.ok.inj (hr'.symm.trans hd)
  unfold qdName
  rw [bind_of_ok hrun]
  rfl

theorem qdName_exit (env : DecEnv) {s : DecState}
    (hn : ∀ text e, NameAt env.pkt s.dec.offset text e → dnsMsgSize < text.length+1) :
    ∃ c t, qdName env s = .exit c t := by
  obtain ⟨r, hr, -, hrun⟩ := decodeNameAt_run env (w := 0) (Nat.zero_le _) s
  unfold qdName
  rw [bind_of_ok hrun]
  obtain ⟨result, off, out⟩ := r
  cases result with
  | error ec => exact ⟨_, _, rfl⟩
  | ok n =>
    obtain ⟨j, ls, text, hreads, hj, hroom, -, rfl, he⟩ := (decodeName_ok_iff _ _ _ _ _ _).mp hr
    have hlong := hn text off ⟨j, ls, hreads, hj, he⟩
    omega

theorem qdName_ok {env : DecEnv} {n : ℕ} {s t : DecState} (h : qdName env s = .ok n t) :
    ∃ text e, NameAt env.pkt s.dec.offset text e ∧ text.length+1 ≤ dnsMsgSize ∧
      n = text.length+1 ∧ t = moveTo (put s 0 (text ++ [0])) e := by
  by_cases hn : ∀ text e, NameAt env.pkt s.dec.offset text e → dnsMsgSize < text.length+1
  · obtain ⟨c, u, hu⟩ := qdName_exit env hn
    rw [hu] at h
    cases h
  · push Not at hn
    obtain ⟨text, e, hat, hfit⟩ := hn
    rw [qdName_run env hat hfit] at h
    cases h
    exact ⟨text, e, hat, hfit, rfl, rfl⟩

theorem qdName_avoids (env : DecEnv) (P : Fault → Prop) (s : DecState) :
    Avoids P (qdName env) s := by
  by_cases hn : ∀ text e, NameAt env.pkt s.dec.offset text e → dnsMsgSize < text.length+1
  · obtain ⟨c, u, hu⟩ := qdName_exit env hn
    exact avoids_of_exit hu
  · push Not at hn
    obtain ⟨text, e, hat, hfit⟩ := hn
    exact avoids_of_ok (qdName_run env hat hfit)

def qdAt (pkt : Bytes) (off : ℕ) : UInt16 × UInt16 :=
  (decU16 (slice (slice pkt off 4) 0 2), decU16 (slice (slice pkt off 4) 2 2))

theorem qdFixed_run {env : DecEnv} {s : DecState} (h : s.dec.offset+4 ≤ env.pkt.length) :
    qdFixed env s = .ok (qdAt env.pkt s.dec.offset) (moveTo s (s.dec.offset+4)) := by
  unfold qdFixed
  rw [bind_of_ok (getOffset_run s), when_neg (by omega), bind_of_ok (pure_run _ _),
    bind_of_ok (readBytes_run env (.inr h) s)]
  rfl

theorem qdFixed_short {env : DecEnv} {s : DecState} (h : env.pkt.length < s.dec.offset+4) :
    ∃ c t, qdFixed env s = .exit c t := by
  unfold qdFixed
  rw [bind_of_ok (getOffset_run s), when_pos h]
  exact ⟨_, _, rfl⟩

theorem dnsWmsg_avoids (env : DecEnv) (text : Bytes) (P : Fault → Prop) (s : DecState) :
    Avoids P (dnsWmsg env text) s := by
  unfold dnsWmsg
  intro c h
  dsimp only at h
  split_ifs at h

theorem loadQd_avoids {s : DecState} {b : Bytes} (hs : Shows s 0 b) (qtype qclass : UInt16)
    (P : Fault → Prop) : Avoids P (loadQd qtype qclass) s := by
  unfold loadQd
  rw [avoids_bind_of_ok hs.msgStr, avoids_bind_of_ok (get_run s)]
  cases hst : msgStoreStr s.msg.store (cstr b) with
  | none => exact avoids_seq (avoids_modify _ _) fun _ _ _ => avoids_exit _ _
  | some p => exact avoids_modify _ _

theorem loadQd_shows {s t : DecState} {b : Bytes} {u : Unit} (hs : Shows s 0 b)
    (qtype qclass : UInt16) (h : loadQd qtype qclass s = .ok u t) : Shows t 0 b := by
  unfold loadQd at h
  rw [bind_of_ok hs.msgStr, bind_of_ok (get_run s)] at h
  cases hst : msgStoreStr s.msg.store (cstr b) with
  | none =>
    simp only [hst] at h
    cases h
  | some p =>
    simp only [hst] at h
    cases h
    exact hs

theorem qdBody_avoids (env : DecEnv) (P : Fault → Prop) (s : DecState) :
    Avoids P (qdBody env) s := by
  unfold qdBody
  refine avoids_seq ?_ fun _ t _ => avoids_seq (qdName_avoids env P t) fun n u hu => ?_
  · exact avoids_seq (avoids_get s) fun _ _ _ => (avoids_when _ _ _).mpr fun _ => avoids_exit _ _
  obtain ⟨text, e, -, hfit, -, rfl⟩ := qdName_ok hu
  have hshow : Shows (moveTo (moveTo (put t 0 (text ++ [0])) e) (e+4)) 0 text :=
    shows_put t (by omega)
  by_cases hshort : env.pkt.length < e+4
  · obtain ⟨c, v, hv⟩ := qdFixed_short (s := moveTo (put t 0 (text ++ [0])) e) hshort
    exact avoids_of_exit (bind_of_exit hv _)
  rw [avoids_bind_of_ok (qdFixed_run (Nat.le_of_not_lt hshort))]
  refine avoids_seq ((avoids_when _ _ _).mpr fun _ => loadQd_avoids hshow _ _ P) fun _ v hv => ?_
  have hv' : Shows v 0 text := by
    by_cases hl : env.loadMsg = true
    · rw [when_pos hl] at hv
      exact loadQd_shows hshow _ _ hv
    · rw [when_neg hl] at hv
      cases hv
      exact hshow
  split
  · rw [avoids_bind_of_ok hv'.msgStr]
    exact dnsWmsg_avoids _ _ P v
  · exact avoids_pure _ _

theorem rowStep_avoids (entry : Dec ℤ) (loc : DnsLocation) (i : ℕ) (P : Fault → Prop)
    (s : DecState) : Avoids P (rowStep entry loc i) s ↔ Avoids P entry s := by
  unfold rowStep
  rw [avoids_bind]
  constructor
  · exact fun h => h.1
  · exact fun h => ⟨h, fun rc t _ => (avoids_when _ _ _).mpr fun _ => avoids_of_exit rfl⟩

theorem rows_avoids (entry : Dec ℤ) (loc : DnsLocation) (n : ℕ) (P : Fault → Prop)
    (s : DecState) : Avoids P (rows entry loc n) s ↔
      ∀ v ∈ visits (rowStep entry loc) 0 n s, Avoids P entry v.2 := by
  unfold rows
  rw [avoids_call, avoids_bind, avoids_loop]
  simp only [rowStep_avoids, avoids_pure, implies_true, and_true]

theorem decodeQd_avoids (env : DecEnv) (P : Fault → Prop) (s : DecState) :
    Avoids P (decodeQd env) s := by
  unfold decodeQd
  rw [avoids_bind_of_ok (get_run s), rows_avoids]
  exact fun v _ => (avoids_call _ _).mpr (qdBody_avoids env P v.2)

theorem hdrBody_avoids (env : DecEnv) (P : Fault → Prop) (s : DecState) :
    Avoids P (hdrBody env) s := by
  unfold hdrBody
  by_cases hshort : env.pkt.length < dnsHdrLen
  · rw [when_pos hshort]
    exact avoids_of_exit rfl
  rw [when_neg hshort, avoids_bind_of_ok (pure_run _ _),
    avoids_bind_of_ok (readBytes_run env (i := 0) (n := dnsHdrLen) (.inr (by omega)) s)]
  refine avoids_seq (avoids_modify _ _) fun _ _ _ => avoids_seq (avoids_modify _ _) fun _ _ _ =>
    avoids_seq ((avoids_when _ _ _).mpr fun _ => avoids_exit _ _) fun _ _ _ =>
    avoids_seq (avoids_modify _ _) fun _ _ _ => avoids_seq ?_ fun _ t _ =>
    dnsWmsg_avoids _ _ P t
  unfold checkFlags
  split
  · exact (avoids_when _ _ _).mpr fun _ => avoids_modify _ _
  · exact (avoids_when _ _ _).mpr fun _ => avoids_modify _ _

theorem orReturn_avoids (x : Dec ℤ) (P : Fault → Prop) (s : DecState) :
    Avoids P (orReturn x) s ↔ Avoids P x s := by
  unfold orReturn
  rw [avoids_bind]
  constructor
  · exact fun h => h.1
  · exact fun h => ⟨h, fun rc t _ => (avoids_when _ _ _).mpr fun _ => avoids_exit _ _⟩

theorem decodeFront_avoids (env : DecEnv) (P : Fault → Prop) (s : DecState) :
    Avoids P (decodeFront env) s :=
  avoids_seq (avoids_modify _ _) fun _ t _ =>
    avoids_seq ((orReturn_avoids _ P t).mpr ((avoids_call _ _).mpr (hdrBody_avoids env P t)))
      fun _ u _ => (orReturn_avoids _ P u).mpr (decodeQd_avoids env P u)

theorem decodeSect_avoids (env : DecEnv) (sc : Sect) (P : Fault → Prop) (s : DecState) :
    Avoids P (decodeSect env sc) s ↔
      ∀ v ∈ sectVisits env sc s, Avoids P (dnsRrDecode env v.1) v.2 := by
  unfold decodeSect sectVisits
  rw [avoids_bind_of_ok (get_run s), rows_avoids]
  simp only [List.forall_mem_map]

theorem decodeSects_avoids (env : DecEnv) (scs : List Sect) (P : Fault → Prop) (s : DecState) :
    Avoids P (decodeSects env scs) s ↔
      ∀ v ∈ sectsVisits env scs s, Avoids P (dnsRrDecode env v.1) v.2 := by
  induction scs generalizing s with
  | nil => simp [decodeSects, sectsVisits]
  | cons sc rest ih =>
    rw [decodeSects, avoids_bind, orReturn_avoids, decodeSect_avoids]
    simp only [sectsVisits, List.forall_mem_append]
    cases h : orReturn (decodeSect env sc) s with
    | ok u t => simp [ih]
    | exit e t => simp
    | fault c => simp

theorem sizeCheck_avoids (env : DecEnv) (P : Fault → Prop) (s : DecState) :
    Avoids P (sizeCheck env) s := by
  unfold sizeCheck
  rw [avoids_bind_of_ok (get_run s)]
  split
  · exact dnsWmsg_avoids _ _ P s
  · exact avoids_pure _ _

theorem decodeMsg_avoids (env : DecEnv) (m : DnsMsg) (P : Fault → Prop) :
    Avoids P (decodeMsg env) (initState m) ↔
      ∀ v ∈ recordVisits env m, Avoids P (dnsRrDecode env v.1) v.2 := by
  unfold decodeMsg recordVisits
  rw [avoids_call, avoids_bind]
  simp only [decodeFront_avoids, true_and, avoids_bind, sizeCheck_avoids, implies_true, and_true,
    decodeSects_avoids]
  cases h : decodeFront env (initState m) with
  | ok u t => simp
  | exit e t => simp
  | fault c => simp

theorem errChain_avoids (env : DecEnv) (errs : List DnsErr) (P : Fault → Prop) (s : DecState) :
    Avoids P (errChain env errs) s := by
  induction errs generalizing s with
  | nil => exact avoids_pure _ _
  | cons err rest ih =>
    unfold errChain
    rw [avoids_bind_of_ok (snprintf_run (Nat.zero_le _) _ s)]
    exact avoids_seq (dnsWmsg_avoids _ _ P _) fun _ t _ => ih t

theorem dnsDecGenmsg_avoids (env : DecEnv) (P : Fault → Prop) (s : DecState) :
    Avoids P (dnsDecGenmsg env) s := by
  unfold dnsDecGenmsg
  rw [avoids_bind_of_ok (get_run s)]
  split
  · exact avoids_seq ((avoids_when _ _ _).mpr fun _ =>
      avoids_seq (dnsWmsg_avoids _ _ P _) fun _ _ _ => avoids_pure _ _) fun _ _ _ =>
      avoids_pure _ _
  · exact avoids_seq (dnsWmsg_avoids _ _ P _) fun _ _ _ =>
      avoids_seq ((avoids_when _ _ _).mpr fun _ =>
        avoids_seq (dnsWmsg_avoids _ _ P _) fun _ _ _ => avoids_pure _ _) fun _ t _ =>
      avoids_seq (errChain_avoids env _ P t) fun _ _ _ =>
      avoids_seq (dnsWmsg_avoids _ _ P _) fun _ _ _ => avoids_pure _ _

theorem validateRun_avoids (env : DecEnv) (m : DnsMsg) (P : Fault → Prop) :
    Avoids P (validateRun env) (initState m) ↔
      ∀ v ∈ recordVisits env m, Avoids P (dnsRrDecode env v.1) v.2 := by
  rw [← decodeMsg_avoids]
  unfold validateRun
  rw [avoids_bind]
  constructor
  · exact fun h => h.1
  · exact fun h => ⟨h, fun _ t _ => avoids_seq (dnsDecGenmsg_avoids env P t) fun _ _ _ =>
      avoids_pure _ _⟩

end DnsPkt.MessageRun
