import DnsPkt.AcceptedRun

/-!
# Where the records of an accepted packet lie

In an accepted packet each record begins where the entry before it ended,
and the decoder's offset ends at the RDATA end it computed. For every type
but `OPT` the offset got there by moving forward, so the 16-bit end did not
wrap. `OPT` sets the offset to that end without having moved there.
-/

set_option autoImplicit false

namespace DnsPkt.RecordChain
open DnsPkt.CheckedRun DnsPkt.CheckedRun.Run DnsPkt.Octets DnsPkt.Protocol DnsPkt.WireName
open DnsPkt.MessageStore DnsPkt.RecordDecoder DnsPkt.MessageDecoder
open DnsPkt.RecordRun DnsPkt.RecordFrame DnsPkt.RecordEntry DnsPkt.MessageRun
open DnsPkt.AcceptedRun

def questionsEnd (pkt : Bytes) : ℕ → ℕ → Option ℕ
  | 0, off => some off
  | n+1, off => match nameEnd pkt off with
    | some e => questionsEnd pkt n (e+4)
    | none => none

/-- Records that start at the given offsets, one after the other from `off`,
have their RDATA inside the packet and end at `fin`. -/
def Chained (pkt : Bytes) : ℕ → List ℕ → ℕ → Prop
  | off, [], fin => fin = off
  | off, o :: rest, fin => o = off ∧ ∃ e, nameEnd pkt o = some e ∧
      rdataEnd pkt e ≤ pkt.length ∧ Chained pkt (rdataEnd pkt e) rest fin

theorem chained_increasing {pkt : Bytes} {off fin : ℕ} {os : List ℕ}
    (h : Chained pkt off os fin) : List.IsChain (· < ·) (os ++ [fin]) ∧ ∀ o ∈ os.head?, o =
    off := by
  induction os generalizing off with
  | nil => simp
  | cons o rest ih =>
    obtain ⟨rfl, e, he, -, hr⟩ := h
    obtain ⟨hc, hhead⟩ := ih hr
    have hlt : o < rdataEnd pkt e := by
      have := (nameEnd_bounds he).1
      unfold rdataEnd
      omega
    refine ⟨?_, by simp⟩
    cases rest with
    | nil =>
      obtain rfl : fin = rdataEnd pkt e := hr
      simpa using hlt
    | cons o' rest =>
      obtain rfl : o' = rdataEnd pkt e := hhead o' (by simp)
      exact List.isChain_cons_cons.mpr ⟨hlt, hc⟩

def fwdFrame : Frame DecState ℤ Fault where
  keep s t := s.dec.offset ≤ t.dec.offset
  leave _ _ _ := True
  raise _ := True
  refl _ := le_rfl
  trans h1 h2 := h1.trans h2
  lift _ _ := trivial

theorem fwdFrame_allows : Allows 0 fwdFrame where
  put s w b _ := by
    change s.dec.offset ≤ (put s w b).dec.offset
    rw [put_offset]
  move _ _ h := h
  load s _ _ := le_refl s.dec.offset
  err _ _ _ _ := trivial
  fail _ := trivial
  report s _ := le_refl s.dec.offset
  reads _ := trivial
  writes _ := trivial
  strings _ := trivial

/-- A record that was decoded to its end leaves the offset at the 16-bit
RDATA end, and moved forward to it unless it is an `OPT` record. -/
theorem rrBody_offset {env : DecEnv} {sc : Sect} {s t : DecState} {rc : ℤ}
    (h : rrBody env sc s = .ok rc t) :
    ∃ text e, Entry env sc s text e ∧ t.dec.offset = rdEndAt env.pkt e ∧
      (rrKind (hdrAt env.pkt e).rrType ≠ .opt → e+10 ≤ rdEndAt env.pkt e) := by
  by_cases hentry : ∃ text e, Entry env sc s text e
  · obtain ⟨text, e, he⟩ := hentry
    rw [rrBody_entered he, rrTail] at h
    obtain ⟨out, m, hm, h⟩ := (bind_ok _ _ _ _ _).mp h
    rw [bind_of_ok (getOffset_run m)] at h
    by_cases hoff : m.dec.offset = rdEndAt env.pkt e
    · rw [when_neg (by simpa using hoff), bind_of_ok (pure_run _ _)] at h
      obtain ⟨_, m', hm', h⟩ := (bind_ok _ _ _ _ _).mp h
      have hm'off : m'.dec.offset = m.dec.offset := by
        unfold Run.when at hm'
        split_ifs at hm' <;> cases hm' <;> rfl
      have htoff : t.dec.offset = m'.dec.offset := by
        unfold rrReport at h
        split at h
        · obtain ⟨name, m1, h1, h⟩ := (bind_ok _ _ _ _ _).mp h
          obtain ⟨desc, m2, h2, h⟩ := (bind_ok _ _ _ _ _).mp h
          have hm1 : m1 = m' := by
            unfold nameText at h1
            split at h1
            · cases h1
              rfl
            · exact (msgStr_ok h1).1
          have hm2 : m2 = m1 := by
            cases hd : out.desc with
            | empty =>
              rw [hd] at h2
              cases h2
              rfl
            | scratch w =>
              rw [hd] at h2
              exact (msgStr_ok h2).1
            | unknown =>
              rw [hd] at h2
              cases h2
              rfl
          rw [(dnsWmsg_ok h).2.1, hm2, hm1]
        · cases h
          rfl
      refine ⟨text, e, he, by rw [htoff, hm'off, hoff], fun hk => ?_⟩
      have hfwd := (keeps_rrRdata fwdFrame_allows.toAllowsFill env sc (hdrAt env.pkt e)
        (Nat.zero_le _) _
        (rdEndAt env.pkt e) _ fun ho => absurd ho hk).ok hm
      exact hoff ▸ hfwd
    · rw [when_pos hoff] at h
      cases h
  · push Not at hentry
    obtain ⟨c, u, hx⟩ := rrBody_rejected hentry
    rw [hx] at h
    cases h

/-- An `OPT` record at the given offset has an RDATA end that fits 16 bits. -/
def OptInRange (pkt : Bytes) (off : ℕ) : Prop :=
  ∀ e, nameEnd pkt off = some e → rrKind (hdrAt pkt e).rrType = .opt → rdataEnd pkt e < 2^16

/-- The offset of an accepted record ends at its unbounded RDATA end exactly
when an `OPT` record does not wrap. -/
theorem recordStep_end {env : DecEnv} {v : Sect × DecState} {u : DecState}
    (h : RecordStep env v u) :
    ∃ e, nameEnd env.pkt v.2.dec.offset = some e ∧ u.dec.offset ≤ env.pkt.length ∧
      u.dec.offset ≤ rdataEnd env.pkt e ∧
      (u.dec.offset = rdataEnd env.pkt e ↔ OptInRange env.pkt v.2.dec.offset) := by
  obtain ⟨text, e, he, hoff, hk⟩ := rrBody_offset h.1
  obtain ⟨-, -, -, -, hend⟩ := he.name
  have hle : rdEndAt env.pkt e ≤ rdataEnd env.pkt e := Nat.mod_le _ _
  refine ⟨e, hend, by rw [hoff]; exact he.rdata, by rw [hoff]; exact hle, ?_⟩
  rw [hoff]
  constructor
  · intro heq e' he' _
    obtain rfl : e = e' := Option.some.inj (hend.symm.trans he')
    rw [← heq]
    exact Nat.mod_lt _ (by decide)
  · intro hopt
    by_cases ho : rrKind (hdrAt env.pkt e).rrType = .opt
    · exact Nat.mod_eq_of_lt (hopt e hend ho)
    · exact rdEndAt_of_le (hk ho)

theorem linked_chained {env : DecEnv} {vs : List (Sect × DecState)} {s t : DecState}
    (h : Linked (RecordStep env) Prod.snd s vs t) :
    Chained env.pkt s.dec.offset (vs.map fun v => v.2.dec.offset) t.dec.offset ↔
      ∀ v ∈ vs, OptInRange env.pkt v.2.dec.offset := by
  induction vs generalizing s with
  | nil =>
    obtain rfl : t = s := h
    simp [Chained]
  | cons v vs ih =>
    obtain ⟨rfl, u, hu, hr⟩ := h
    obtain ⟨e, he, hle, hle', hiff⟩ := recordStep_end hu
    simp only [List.map_cons, Chained, true_and, List.forall_mem_cons, he, Option.some.injEq,
      exists_eq_left']
    constructor
    · rintro ⟨-, hc⟩
      have hoff : u.dec.offset = rdataEnd env.pkt e := by
        cases vs with
        | nil =>
          obtain rfl : t = u := hr
          exact hc
        | cons v' vs =>
          obtain ⟨rfl, -⟩ := hr
          exact hc.1
      exact ⟨hiff.mp hoff, (ih hr).mp (hoff ▸ hc)⟩
    · rintro ⟨ho, hrest⟩
      have hoff := hiff.mpr ho
      exact ⟨hoff ▸ hle, hoff ▸ (ih hr).mpr hrest⟩

theorem qdBody_offset {env : DecEnv} {s t : DecState} {rc : ℤ} (h : qdBody env s = .ok rc t)
    (hl : env.loadMsg = false) :
    ∃ e, nameEnd env.pkt s.dec.offset = some e ∧ t.dec.offset = e+4 ∧ e+4 ≤ env.pkt.length := by
  unfold qdBody at h
  obtain ⟨_, s1, h1, h⟩ := (bind_ok _ _ _ _ _).mp h
  obtain ⟨n, s2, h2, h⟩ := (bind_ok _ _ _ _ _).mp h
  obtain ⟨p, s3, h3, h⟩ := (bind_ok _ _ _ _ _).mp h
  obtain ⟨_, s4, h4, h⟩ := (bind_ok _ _ _ _ _).mp h
  have hs1 : s1 = s := by
    unfold qdSlot at h1
    rw [bind_of_ok (get_run s), when_neg (by simp [hl])] at h1
    cases h1
    rfl
  subst hs1
  obtain ⟨text, e, ⟨-, -, -, -, hend⟩, -, -, rfl⟩ := qdName_ok h2
  have hshort : ¬ env.pkt.length < e+4 := by
    intro hlt
    obtain ⟨c, u, hu⟩ := qdFixed_short (s := moveTo (put s1 0 (text ++ [0])) e) hlt
    rw [hu] at h3
    cases h3
  rw [qdFixed_run (Nat.le_of_not_lt hshort)] at h3
  cases h3
  rw [when_neg (by simp [hl])] at h4
  cases h4
  refine ⟨e, hend, ?_, by omega⟩
  split at h
  · obtain ⟨name, m, hm, h⟩ := (bind_ok _ _ _ _ _).mp h
    rw [(dnsWmsg_ok h).2.1, (msgStr_ok hm).1]
    rfl
  · cases h
    rfl

theorem loop_questionsEnd {env : DecEnv} (hl : env.loadMsg = false) (i n : ℕ) {s t : DecState}
    (h : loop (rowStep (dnsQdDecode env) .qd) i n s = .ok () t) (ht : t.dec.errs = []) :
    questionsEnd env.pkt n s.dec.offset = some t.dec.offset ∧
      (s.dec.offset ≤ env.pkt.length → t.dec.offset ≤ env.pkt.length) := by
  induction n generalizing i s with
  | zero =>
    cases h
    exact ⟨rfl, id⟩
  | succ n ih =>
    obtain ⟨_, m, hm, hr⟩ := (bind_ok _ _ _ _ _).mp h
    have hmerrs := nil_of_grown
      ((keeps_loop (fun i => keeps_rowStep growFrame_calls (grows_dnsQdDecode env) .qd i) (i+1)
        n).ok hr).1 ht
    obtain ⟨-, hbody⟩ := entry_clean (qdBody_errs env) (rowStep_ok.mp hm) hmerrs
    obtain ⟨e, he, hoff, hle⟩ := qdBody_offset hbody hl
    obtain ⟨hq, hle'⟩ := ih (i+1) hr
    simp only [questionsEnd, he]
    rw [hoff] at hq hle'
    exact ⟨hq, fun _ => hle' hle⟩

/-- The records of a packet that `dns_validate` accepts are chained from the
end of the questions to the final offset, through increasing offsets, exactly
when no `OPT` record among them has an RDATA end of 2^16 or more. -/
theorem accepted_records_chained_iff (pkt : Bytes) (emsgLen : ℕ) (t : DecState)
    (h : dnsValidate pkt emsgLen = .ok 0 t) :
    (∃ off, questionsEnd pkt (hdrOf pkt).qdCount.toNat dnsHdrLen = some off ∧
      Chained pkt off ((recordVisits (validateEnv pkt emsgLen) (zeroMsg 0)).map
        fun v => v.2.dec.offset) t.dec.offset ∧
      List.IsChain (· < ·) ((recordVisits (validateEnv pkt emsgLen) (zeroMsg 0)).map
        (fun v => v.2.dec.offset) ++ [t.dec.offset])) ↔
      ∀ v ∈ recordVisits (validateEnv pkt emsgLen) (zeroMsg 0), OptInRange pkt v.2.dec.offset := by
  obtain ⟨s0, t1, t2, h0, h1, -, hs0, ht1, hoff⟩ := dnsValidate_zero h
  obtain ⟨-, s, -, -, hsoff, -, hloop, -⟩ := decodeFront_clean rfl h0 hs0
  have hq := (loop_questionsEnd rfl 0 _ hloop hs0).1
  rw [hsoff] at hq
  have hchain := linked_chained (recordVisits_linked h0 h1 ht1)
  rw [← hoff] at hchain
  simp only [validateEnv] at hq hchain ⊢
  rw [← hchain]
  constructor
  · rintro ⟨off, hoff', hc, -⟩
    obtain rfl : s0.dec.offset = off := Option.some.inj (hq.symm.trans hoff')
    exact hc
  · exact fun hc => ⟨s0.dec.offset, hq, hc, (chained_increasing hc).1⟩

/-- An `OPT` record at the end of the packet whose RDATA end wraps to 22. -/
def wrappedOptPkt : Bytes := responseHdr 0 0 1 ++ [0, 0, 41, 0, 1, 0, 0, 0, 0, 255, 255]

theorem wrapped_opt_not_chained : ∃ t, dnsValidate wrappedOptPkt 1000 = .ok 0 t ∧
    ¬ ∃ off, questionsEnd wrappedOptPkt (hdrOf wrappedOptPkt).qdCount.toNat dnsHdrLen = some off ∧
      Chained wrappedOptPkt off ((recordVisits (validateEnv wrappedOptPkt 1000) (zeroMsg 0)).map
        fun v => v.2.dec.offset) t.dec.offset ∧
      List.IsChain (· < ·) ((recordVisits (validateEnv wrappedOptPkt 1000) (zeroMsg 0)).map
        (fun v => v.2.dec.offset) ++ [t.dec.offset]) := by
  have hacc : (dnsValidate wrappedOptPkt 1000).result.map
      (fun p => (p.1, p.2.dec.offset)) = some (0, 22) := by decide +kernel
  obtain ⟨c, t, h, hp⟩ := Outcome.eq_ok hacc
  simp only [Prod.mk.injEq] at hp
  obtain ⟨rfl, hoff⟩ := hp
  have hvisits : ((recordVisits (validateEnv wrappedOptPkt 1000) (zeroMsg 0)).map
      fun v => v.2.dec.offset) = [12] := by decide +kernel
  have hend : nameEnd wrappedOptPkt 12 = some 13 := by decide +kernel
  refine ⟨t, h, ?_⟩
  rintro ⟨off, -, hc, -⟩
  rw [hvisits] at hc
  obtain ⟨-, e, he, hle, -⟩ := hc
  obtain rfl : 13 = e := Option.some.inj (hend.symm.trans he)
  revert hle
  decide +kernel

def optPkt : Bytes := responseHdr 0 0 1 ++ [0, 0, 41, 2, 0, 0, 0, 0, 0, 0, 0]

theorem opt_records_chained : ∃ t, dnsValidate optPkt 1000 = .ok 0 t ∧
    ∃ off, questionsEnd optPkt (hdrOf optPkt).qdCount.toNat dnsHdrLen = some off ∧
      Chained optPkt off ((recordVisits (validateEnv optPkt 1000) (zeroMsg 0)).map
        fun v => v.2.dec.offset) t.dec.offset ∧
      List.IsChain (· < ·) ((recordVisits (validateEnv optPkt 1000) (zeroMsg 0)).map
        (fun v => v.2.dec.offset) ++ [t.dec.offset]) := by
  have hacc : (dnsValidate optPkt 1000).result.map (fun p => p.1) = some 0 := by decide +kernel
  obtain ⟨_, t, h, rfl⟩ := Outcome.eq_ok hacc
  refine ⟨t, h, (accepted_records_chained_iff optPkt 1000 t h).mpr ?_⟩
  have hvisits : ∀ off ∈ (recordVisits (validateEnv optPkt 1000) (zeroMsg 0)).map
      (fun v => v.2.dec.offset), off = 12 := by decide +kernel
  have hend : nameEnd optPkt 12 = some 13 := by decide +kernel
  intro v hv e he _
  rw [hvisits _ (List.mem_map_of_mem hv)] at he
  obtain rfl : 13 = e := Option.some.inj (hend.symm.trans he)
  decide +kernel

end DnsPkt.RecordChain
