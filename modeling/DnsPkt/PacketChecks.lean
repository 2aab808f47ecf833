import DnsPkt.EndChecks
import DnsPkt.LoaderVerdict

/-!
# The checks of a decode against the packet end

The checks are listed along a decode of a message, in the order in which the
decoder makes them. Two packets that begin alike, and on which every check
comes out alike, are decoded in the same way: the decoder tells nothing apart
behind the bytes that they share.
-/

set_option autoImplicit false

namespace DnsPkt.PacketChecks
open DnsPkt.CheckedRun DnsPkt.CheckedRun.Run DnsPkt.Octets DnsPkt.Protocol
open DnsPkt.MessageStore DnsPkt.NameDecoder DnsPkt.ReportText DnsPkt.RecordDecoder
open DnsPkt.MessageDecoder DnsPkt.RecordRun DnsPkt.LoaderVerdict DnsPkt.EndChecks

section Behind

variable {σ ε φ α β κ : Type}

def behind (x : Run σ ε φ α) (f : α → σ → List κ) : σ → List κ := fun s =>
  match x s with
  | .ok a t => f a t
  | _ => []

theorem mem_behind {x : Run σ ε φ α} {f : α → σ → List κ} {s t : σ} {a : α} (h : x s = .ok a t)
    {c : κ} (hc : c ∈ f a t) : c ∈ behind x f s := by
  rw [behind, h]
  exact hc

/-- Two runs are the same if their parts are the same where the first one gets to. -/
theorem bind_congr_run {x y : Run σ ε φ α} {f g : α → Run σ ε φ β} {s : σ} (hx : x s = y s)
    (hf : ∀ a t, x s = .ok a t → f a t = g a t) : (x >>= f) s = (y >>= g) s := by
  cases hrun : x s with
  | ok a t =>
    rw [bind_of_ok hrun, bind_of_ok (hx.symm.trans hrun)]
    exact hf a t hrun
  | exit e t => rw [bind_of_exit hrun, bind_of_exit (hx.symm.trans hrun)]
  | fault c => rw [bind_of_fault hrun, bind_of_fault (hx.symm.trans hrun)]

theorem guard_congr_run {q : Prop} [Decidable q] {e : Run σ ε φ Unit}
    (he : ∀ s u t, e s ≠ .ok u t) {f g : Unit → Run σ ε φ β} {s : σ}
    (hf : ¬ q → f () s = g () s) : (when q e >>= f) s = (when q e >>= g) s := by
  apply bind_congr_run rfl
  intro u t hrun
  by_cases hq : q
  · rw [when_pos hq] at hrun
    exact absurd hrun (he s u t)
  · rw [when_neg hq] at hrun
    cases hrun
    exact hf hq

theorem call_congr_run {ρ : Type} {x y : Run σ ρ φ ρ} {s : σ} (h : x s = y s) :
    (call x : Run σ ε φ ρ) s = call y s := by
  rw [call, call, h]

theorem loop_congr_run {body body' : ℕ → Run σ ε φ Unit} {i n : ℕ} {s : σ}
    (h : ∀ v ∈ visits body i n s, body v.1 v.2 = body' v.1 v.2) :
    loop body i n s = loop body' i n s := by
  induction n generalizing i s with
  | zero => rfl
  | succ n ih =>
    have hfirst : body i s = body' i s := h (i, s) (List.mem_cons_self ..)
    apply bind_congr_run hfirst
    intro u t hrun
    rw [visits_succ_of_ok hrun] at h
    exact ih fun v hv => h v (List.mem_cons_of_mem _ hv)

end Behind

def nameAtChecks (env : DecEnv) (w : ℕ) (s : DecState) : List EndCheck :=
  nameChecks env.pkt s.dec.offset (sizeLeft w)

/-- The bytes at the start of the RDATA that are read without a check. -/
def takenLen (env : DecEnv) (h : RrHdr) (w : ℕ) : ℕ :=
  let described := env.needEmsg = true ∧ ip4AddrStrlen ≤ sizeLeft w
  match rrKind h.rrType with
  | .a => if h.rdlen.toNat = 4 ∧ (env.loadMsg = true ∨ described) then 4 else 0
  | .aaaa =>
    if h.rdlen.toNat = 16 then
      if env.loadMsg then 16 else if described then 4 else 0
    else 0
  | .hinfo => if 2 ≤ h.rdlen.toNat then 1 else 0
  | .mx => if 3 ≤ h.rdlen.toNat then 2 else 0
  | .srv => if 7 ≤ h.rdlen.toNat then 6 else 0
  | _ => 0

def soaChecks (env : DecEnv) (sc : Sect) (w : ℕ) (rc : ℤ) : DecState → List EndCheck :=
  behind (describe env w rc (ascii "MNAME=")) fun p s =>
    nameAtChecks env p.1 s ++ behind (nameField env .soa p.1) (fun n =>
      behind (loadName env sc p.1 (onRdata Rdata.setSoaMname)) fun _ =>
      behind (describe env (p.1+n) rc (ascii " RNAME=")) fun q => nameAtChecks env q.1) s

def numsChecks (env : DecEnv) (h : RrHdr) (field : DnsLocation) (len : ℕ) (text : Bytes → Bytes)
    (w start : ℕ) (rc : ℤ) : DecState → List EndCheck :=
  behind (when (h.rdlen.toNat < len+1) (retErr .rr field DnsEc.erdatalen.code)) fun _ =>
  behind (readBytes env start len) fun b =>
  behind (advance len) fun _ =>
  behind (describe env w rc (text b)) fun p => nameAtChecks env p.1

def mxChecks (env : DecEnv) (h : RrHdr) (w start : ℕ) (rc : ℤ) : DecState → List EndCheck :=
  numsChecks env h .mx 2 (fun b => ascii "pref " ++ decimal (decU16 b).toNat ++ ascii " ") w
    start rc

def srvChecks (env : DecEnv) (h : RrHdr) (w start : ℕ) (rc : ℤ) : DecState → List EndCheck :=
  numsChecks env h .srv 6 (fun b => ascii "Priority " ++ decimal (decU16 (slice b 0 2)).toNat ++
    ascii " Weight " ++ decimal (decU16 (slice b 2 2)).toNat ++ ascii " port " ++
    decimal (decU16 (slice b 4 2)).toNat ++ ascii " ") w start rc

def rdataChecks (env : DecEnv) (sc : Sect) (h : RrHdr) (w start : ℕ) (rc : ℤ) :
    DecState → List EndCheck :=
  match rrKind h.rrType with
  | .ns => nameAtChecks env w
  | .cname => nameAtChecks env w
  | .ptr => nameAtChecks env w
  | .soa => soaChecks env sc w rc
  | .mx => mxChecks env h w start rc
  | .srv => srvChecks env h w start rc
  | _ => fun _ => []

/-- The checks behind the header of a record, whose RDATA starts where the decoder is. -/
def rdlenChecks (env : DecEnv) (sc : Sect) (n : ℕ) (h : RrHdr) (s : DecState) : List EndCheck :=
  let rdEnd := (s.dec.offset+h.rdlen.toNat) % 2^16
  .ask rdEnd :: if env.pkt.length < rdEnd then [] else
    .take (s.dec.offset+takenLen env h (n+1)) ::
      rdataChecks env sc h (n+1) s.dec.offset n s

def rrChecks (env : DecEnv) (sc : Sect) : DecState → List EndCheck :=
  behind (rrSlot env sc) fun _ s =>
    nameAtChecks env 0 s ++ behind (rrName env sc) (fun n s =>
      .ask (s.dec.offset+10) :: behind (rrHdr env sc) (rdlenChecks env sc n) s) s

def qdChecks (env : DecEnv) : DecState → List EndCheck :=
  behind (qdSlot env) fun _ s =>
    nameAtChecks env 0 s ++ behind (qdName env) (fun _ s => [.ask (s.dec.offset+4)]) s

/-- The checks of `decode_msg`. The last one is of the length against the `UDP` size. -/
def packetChecks (env : DecEnv) (m : DnsMsg) : List EndCheck :=
  .ask dnsHdrLen :: ((questionVisits env m).flatMap (qdChecks env) ++
    ((recordVisits env m).flatMap (fun v => rrChecks env v.1 v.2) ++
      behind (decodeFront env) (fun _ =>
        behind (decodeSects env [.an, .ns, .ar]) fun _ s =>
          if env.needEmsg then [.size (s.dec.udpSize+1)] else []) (initState m)))

def withPkt (env : DecEnv) (d : Bytes) : DecEnv := { env with pkt := d }

section Pair

variable {env : DecEnv} {p d : Bytes} (hp : Begin p env.pkt d)
include hp

theorem readBytes_alike {i n : ℕ} (h : i+n ≤ p.length) (s : DecState) :
    readBytes env i n s = readBytes (withPkt env d) i n s := by
  have hla := hp.left.length_le
  have hlb : p.length ≤ d.length := hp.right.length_le
  have hlb' : i+n ≤ (withPkt env d).pkt.length := h.trans hlb
  rw [readBytes, readBytes, pktSlice_of_le (by omega), pktSlice_of_le hlb', hp.slice h]
  rfl

theorem decodeNameAt_alike {w : ℕ} {s : DecState}
    (h : ∀ c ∈ nameAtChecks env w s, Alike p env.pkt d c) :
    decodeNameAt env w s = decodeNameAt (withPkt env d) w s := by
  have hname := decodeName_alike hp h
  rw [decodeNameAt, decodeNameAt, hname]
  rfl

theorem nameField_alike {field : DnsLocation} {w : ℕ} {s : DecState}
    (h : ∀ c ∈ nameAtChecks env w s, Alike p env.pkt d c) :
    nameField env field w s = nameField (withPkt env d) field w s :=
  bind_congr_run (decodeNameAt_alike hp h) fun _ _ _ => rfl

theorem describeIp_alike {start w : ℕ} {rc : ℤ} {s : DecState}
    (h : env.needEmsg = true ∧ ip4AddrStrlen ≤ sizeLeft w → start+4 ≤ p.length) :
    describeIp env start w rc s = describeIp (withPkt env d) start w rc s := by
  have hneed : (withPkt env d).needEmsg = env.needEmsg := rfl
  rw [describeIp, describeIp, hneed]
  by_cases hn : env.needEmsg = true
  · rw [if_pos hn, if_pos hn]
    by_cases hw : sizeLeft w < ip4AddrStrlen
    · rw [if_pos hw, if_pos hw]
    · rw [if_neg hw, if_neg hw]
      exact bind_congr_run (readBytes_alike hp (h ⟨hn, Nat.le_of_not_lt hw⟩) s) fun _ _ _ => rfl
  · rw [if_neg hn, if_neg hn]

omit hp in
theorem retErr_ne_ok (group field : DnsLocation) (ec : ℤ) (s : DecState) (u : Unit)
    (t : DecState) : retErr group field ec s ≠ .ok u t := by
  intro h
  cases h

theorem strField_alike {field : DnsLocation} {label : Bytes} {rdEnd w : ℕ} {rc : ℤ}
    {load : Bytes → Dec Unit} {s : DecState} (hoff : s.dec.offset+1 ≤ p.length)
    (hrd : rdEnd ≤ p.length) : strField env field label rdEnd w rc load s =
      strField (withPkt env d) field label rdEnd w rc load s := by
  refine bind_congr_run rfl fun off s' hget => ?_
  cases hget
  refine bind_congr_run (readBytes_alike hp hoff s) fun b t hb => ?_
  refine bind_congr_run rfl fun _ u _ => ?_
  refine guard_congr_run (retErr_ne_ok _ _ _) fun hin => ?_
  exact bind_congr_run (readBytes_alike hp (by omega) u) fun _ _ _ => rfl

theorem rdataA_alike {sc : Sect} {h : RrHdr} {w start : ℕ} {rc : ℤ} {s : DecState}
    (htaken : start+takenLen env h w ≤ p.length) (hk : rrKind h.rrType = .a) :
    rdataA env sc h w start rc s = rdataA (withPkt env d) sc h w start rc s := by
  refine guard_congr_run (retErr_ne_ok _ _ _) fun hlen => ?_
  have hread (hneed : env.loadMsg = true ∨ env.needEmsg = true ∧ ip4AddrStrlen ≤ sizeLeft w) :
      start+4 ≤ p.length := by
    simpa only [takenLen, hk, if_pos (And.intro (not_not.mp hlen) hneed)] using htaken
  refine bind_congr_run ?_ fun _ t _ => ?_
  · by_cases hl : env.loadMsg = true
    · have hl' : (withPkt env d).loadMsg = true := hl
      rw [when_pos hl, when_pos hl']
      exact bind_congr_run (readBytes_alike hp (hread (.inl hl)) s) fun _ _ _ => rfl
    · have hl' : ¬ (withPkt env d).loadMsg = true := hl
      rw [when_neg hl, when_neg hl']
  · exact bind_congr_run rfl fun _ u _ => describeIp_alike hp fun hneed => hread (.inr hneed)

theorem rdataAaaa_alike {sc : Sect} {h : RrHdr} {w start : ℕ} {rc : ℤ} {s : DecState}
    (htaken : start+takenLen env h w ≤ p.length) (hk : rrKind h.rrType = .aaaa) :
    rdataAaaa env sc h w start rc s = rdataAaaa (withPkt env d) sc h w start rc s := by
  refine guard_congr_run (retErr_ne_ok _ _ _) fun hlen => ?_
  simp only [takenLen, hk, if_pos (not_not.mp hlen)] at htaken
  refine bind_congr_run rfl fun _ t _ => ?_
  refine bind_congr_run ?_ fun _ u _ => ?_
  · by_cases hl : env.loadMsg = true
    · have hl' : (withPkt env d).loadMsg = true := hl
      rw [if_pos hl] at htaken
      rw [when_pos hl, when_pos hl']
      exact bind_congr_run (readBytes_alike hp htaken t) fun _ _ _ => rfl
    · have hl' : ¬ (withPkt env d).loadMsg = true := hl
      rw [when_neg hl, when_neg hl']
  · apply describeIp_alike hp
    intro hneed
    by_cases hl : env.loadMsg = true
    · rw [if_pos hl] at htaken
      omega
    · rwa [if_neg hl, if_pos hneed] at htaken

theorem rdataName_alike {sc : Sect} {field : DnsLocation} {f : ℕ → Ptr → Rdata Ptr → Rdata Ptr}
    {w : ℕ} {s : DecState} (h : ∀ c ∈ nameAtChecks env w s, Alike p env.pkt d c) :
    rdataName env sc field f w s = rdataName (withPkt env d) sc field f w s :=
  bind_congr_run (nameField_alike hp h) fun _ _ _ => rfl

theorem rdataSoa_alike {sc : Sect} {w rdEnd : ℕ} {rc : ℤ} {s : DecState}
    (h : ∀ c ∈ soaChecks env sc w rc s, Alike p env.pkt d c) (hrd : rdEnd ≤ p.length) :
    rdataSoa env sc w rdEnd rc s = rdataSoa (withPkt env d) sc w rdEnd rc s := by
  refine bind_congr_run rfl fun p1 t hdesc => ?_
  have h1 : ∀ c ∈ nameAtChecks env p1.1 t, Alike p env.pkt d c := fun c hc =>
    h c (mem_behind hdesc (List.mem_append_left _ hc))
  refine bind_congr_run (nameField_alike hp h1) fun n1 u hname => ?_
  refine bind_congr_run rfl fun _ v hload => ?_
  refine bind_congr_run rfl fun p2 x hdesc2 => ?_
  have h2 : ∀ c ∈ nameAtChecks env p2.1 x, Alike p env.pkt d c := fun c hc =>
    h c (mem_behind hdesc (List.mem_append_right _ (mem_behind hname (mem_behind hload
      (mem_behind hdesc2 hc)))))
  refine bind_congr_run (nameField_alike hp h2) fun n2 y _ => ?_
  refine bind_congr_run rfl fun _ z _ => ?_
  refine bind_congr_run rfl fun off z' _ => ?_
  refine guard_congr_run (retErr_ne_ok _ _ _) fun hin => ?_
  exact bind_congr_run (readBytes_alike hp (by omega) z') fun _ _ _ => rfl

theorem rdataHinfo_alike {sc : Sect} {h : RrHdr} {w rdEnd : ℕ} {rc : ℤ} {s : DecState}
    (htaken : s.dec.offset+takenLen env h w ≤ p.length) (hk : rrKind h.rrType = .hinfo)
    (hrd : rdEnd ≤ p.length) :
    rdataHinfo env sc h w rdEnd rc s = rdataHinfo (withPkt env d) sc h w rdEnd rc s := by
  refine guard_congr_run (retErr_ne_ok _ _ _) fun hlen => ?_
  simp only [takenLen, hk, if_pos (Nat.le_of_not_lt hlen)] at htaken
  refine bind_congr_run (strField_alike hp htaken hrd) fun q t _ => ?_
  refine bind_congr_run rfl fun off u hoff => ?_
  cases hoff
  refine guard_congr_run (retErr_ne_ok _ _ _) fun hin => ?_
  exact bind_congr_run (strField_alike hp (by omega) hrd) fun _ _ _ => rfl

theorem rdataNumsName_alike {sc : Sect} {h : RrHdr} {field : DnsLocation} {len : ℕ}
    {text : Bytes → Bytes} {setNums : Bytes → Rdata Ptr → Rdata Ptr}
    {setName : Ptr → Rdata Ptr → Rdata Ptr} {w start : ℕ} {rc : ℤ} {s : DecState}
    (htaken : len+1 ≤ h.rdlen.toNat → start+len ≤ p.length)
    (hc : ∀ c ∈ numsChecks env h field len text w start rc s, Alike p env.pkt d c) :
    rdataNumsName env sc h field len text setNums setName w start rc s =
      rdataNumsName (withPkt env d) sc h field len text setNums setName w start rc s := by
  refine bind_congr_run rfl fun _ s0 hguard => ?_
  have hlen : len+1 ≤ h.rdlen.toNat := by
    by_contra hshort
    rw [when_pos (Nat.lt_of_not_le hshort)] at hguard
    cases hguard
  refine bind_congr_run (readBytes_alike hp (htaken hlen) s0) fun b t hread => ?_
  refine bind_congr_run rfl fun _ u hadv => ?_
  refine bind_congr_run rfl fun q v hdesc => ?_
  have hname : ∀ c ∈ nameAtChecks env q.1 v, Alike p env.pkt d c := fun c hmem =>
    hc c (mem_behind hguard (mem_behind hread (mem_behind hadv (mem_behind hdesc hmem))))
  exact bind_congr_run (nameField_alike hp hname) fun _ _ _ => rfl

theorem rdataMx_alike {sc : Sect} {h : RrHdr} {w start : ℕ} {rc : ℤ} {s : DecState}
    (htaken : start+takenLen env h w ≤ p.length) (hk : rrKind h.rrType = .mx)
    (hc : ∀ c ∈ mxChecks env h w start rc s, Alike p env.pkt d c) :
    rdataMx env sc h w start rc s = rdataMx (withPkt env d) sc h w start rc s := by
  rw [rdataMx_eq, rdataMx_eq]
  refine rdataNumsName_alike hp (fun hlen => ?_) hc
  simpa only [takenLen, hk, if_pos hlen] using htaken

theorem rdataSrv_alike {sc : Sect} {h : RrHdr} {w start : ℕ} {rc : ℤ} {s : DecState}
    (htaken : start+takenLen env h w ≤ p.length) (hk : rrKind h.rrType = .srv)
    (hc : ∀ c ∈ srvChecks env h w start rc s, Alike p env.pkt d c) :
    rdataSrv env sc h w start rc s = rdataSrv (withPkt env d) sc h w start rc s := by
  rw [rdataSrv_eq, rdataSrv_eq]
  refine rdataNumsName_alike hp (fun hlen => ?_) hc
  simpa only [takenLen, hk, if_pos hlen] using htaken

theorem txtLoop_alike {sc : Sect} {rdEnd k w : ℕ} {rc : ℤ} {s : DecState}
    (hrd : rdEnd ≤ p.length) :
    txtLoop env sc rdEnd k w rc s = txtLoop (withPkt env d) sc rdEnd k w rc s := by
  induction k generalizing w rc s with
  | zero => rfl
  | succ k ih =>
    refine bind_congr_run rfl fun off t hoff => ?_
    cases hoff
    by_cases hin : s.dec.offset < rdEnd
    · simp only [if_pos hin]
      exact bind_congr_run (strField_alike hp (by omega) hrd) fun q u _ => ih
    · simp only [if_neg hin]

theorem rrRdata_alike {sc : Sect} {h : RrHdr} {w start rdEnd : ℕ} {rc : ℤ} {s : DecState}
    (hs : s.dec.offset = start) (htaken : start+takenLen env h w ≤ p.length)
    (hrd : rdEnd ≤ p.length) (hc : ∀ c ∈ rdataChecks env sc h w start rc s, Alike p env.pkt d c) :
    rrRdata env sc h w start rdEnd rc s = rrRdata (withPkt env d) sc h w start rdEnd rc s := by
  rw [rrRdata, rrRdata]
  rw [rdataChecks] at hc
  cases hk : rrKind h.rrType with
  | a => exact rdataA_alike hp htaken hk
  | aaaa => exact rdataAaaa_alike hp htaken hk
  | hinfo =>
    rw [← hs] at htaken
    exact rdataHinfo_alike hp htaken hk hrd
  | txt => exact bind_congr_run (txtLoop_alike hp hrd) fun _ _ _ => rfl
  | ns =>
    rw [hk] at hc
    exact rdataName_alike hp hc
  | cname =>
    rw [hk] at hc
    exact rdataName_alike hp hc
  | ptr =>
    rw [hk] at hc
    exact rdataName_alike hp hc
  | soa =>
    rw [hk] at hc
    exact rdataSoa_alike hp hc hrd
  | mx =>
    rw [hk] at hc
    exact rdataMx_alike hp htaken hk hc
  | srv =>
    rw [hk] at hc
    exact rdataSrv_alike hp htaken hk hc
  | opt => rfl
  | any => rfl
  | other => rfl

/-- A check that comes out alike: it fails on both packets, or passes inside the shared bytes. -/
theorem askGuard_alike {β : Type} {k : ℕ} {group field : DnsLocation} {ec : ℤ} {f g : Unit → Dec β}
    {s : DecState} (h : Alike p env.pkt d (.ask k)) (hf : k ≤ p.length → f () s = g () s) :
    (when (env.pkt.length < k) (retErr group field ec) >>= f) s =
      (when ((withPkt env d).pkt.length < k) (retErr group field ec) >>= g) s := by
  have hiff : k ≤ env.pkt.length ↔ k ≤ (withPkt env d).pkt.length := ask_iff hp h
  by_cases hshort : env.pkt.length < k
  · rw [when_pos hshort, when_pos (by omega)]
    rfl
  · rw [bind_when_neg hshort, bind_when_neg (by omega)]
    exact hf (ask_inside h (Nat.le_of_not_lt hshort))

theorem rrName_alike {sc : Sect} {s : DecState}
    (h : ∀ c ∈ nameAtChecks env 0 s, Alike p env.pkt d c) :
    rrName env sc s = rrName (withPkt env d) sc s :=
  bind_congr_run (nameField_alike hp h) fun _ _ _ => rfl

theorem rrHdr_alike {sc : Sect} {s : DecState}
    (h : Alike p env.pkt d (.ask (s.dec.offset+10))) :
    rrHdr env sc s = rrHdr (withPkt env d) sc s := by
  refine bind_congr_run rfl fun off t hoff => ?_
  cases hoff
  refine askGuard_alike hp h fun hin => ?_
  exact bind_congr_run (readBytes_alike hp hin s) fun _ _ _ => rfl

theorem rrBody_alike {sc : Sect} {s : DecState}
    (h : ∀ c ∈ rrChecks env sc s, Alike p env.pkt d c) :
    rrBody env sc s = rrBody (withPkt env d) sc s := by
  refine bind_congr_run rfl fun u s1 hslot => ?_
  have h1 : ∀ c ∈ nameAtChecks env 0 s1 ++ behind (rrName env sc) (fun n s =>
      .ask (s.dec.offset+10) :: behind (rrHdr env sc) (rdlenChecks env sc n) s) s1,
      Alike p env.pkt d c := fun c hc => h c (mem_behind hslot hc)
  obtain ⟨hname, h2⟩ := List.forall_mem_append.mp h1
  refine bind_congr_run (rrName_alike hp hname) fun n s2 hrun => ?_
  have h3 : ∀ c ∈ .ask (s2.dec.offset+10) :: behind (rrHdr env sc) (rdlenChecks env sc n) s2,
      Alike p env.pkt d c := fun c hc => h2 c (mem_behind hrun hc)
  obtain ⟨hhdr, h4⟩ := List.forall_mem_cons.mp h3
  refine bind_congr_run (rrHdr_alike hp hhdr) fun hd s3 hrun3 => ?_
  have h5 : ∀ c ∈ rdlenChecks env sc n hd s3, Alike p env.pkt d c := fun c hc =>
    h4 c (mem_behind hrun3 hc)
  obtain ⟨hrd, h6⟩ := List.forall_mem_cons.mp h5
  refine bind_congr_run rfl fun start s4 hstart => ?_
  cases hstart
  refine askGuard_alike hp hrd fun hin => ?_
  have hla := hp.left.length_le
  rw [if_neg (Nat.not_lt.mpr (hin.trans hla))] at h6
  obtain ⟨htaken, hrdata⟩ := List.forall_mem_cons.mp h6
  exact bind_congr_run (rrRdata_alike hp rfl htaken hin hrdata) fun _ _ _ => rfl

theorem dnsRrDecode_alike {sc : Sect} {s : DecState}
    (h : ∀ c ∈ rrChecks env sc s, Alike p env.pkt d c) :
    dnsRrDecode env sc s = dnsRrDecode (withPkt env d) sc s := call_congr_run (rrBody_alike hp h)

theorem qdFixed_alike {s : DecState} (h : Alike p env.pkt d (.ask (s.dec.offset+4))) :
    qdFixed env s = qdFixed (withPkt env d) s := by
  refine bind_congr_run rfl fun off t hoff => ?_
  cases hoff
  refine askGuard_alike hp h fun hin => ?_
  exact bind_congr_run (readBytes_alike hp hin s) fun _ _ _ => rfl

theorem dnsQdDecode_alike {s : DecState} (h : ∀ c ∈ qdChecks env s, Alike p env.pkt d c) :
    dnsQdDecode env s = dnsQdDecode (withPkt env d) s := by
  refine call_congr_run (bind_congr_run rfl fun u s1 hslot => ?_)
  have h1 : ∀ c ∈ nameAtChecks env 0 s1 ++
      behind (qdName env) (fun _ s => [.ask (s.dec.offset+4)]) s1, Alike p env.pkt d c :=
    fun c hc => h c (mem_behind hslot hc)
  obtain ⟨hname, h2⟩ := List.forall_mem_append.mp h1
  have hqd : qdName env s1 = qdName (withPkt env d) s1 :=
    bind_congr_run (decodeNameAt_alike hp hname) fun _ _ _ => rfl
  refine bind_congr_run hqd fun n s2 hrun => ?_
  have h3 := h2 _ (mem_behind hrun (List.mem_singleton_self _))
  exact bind_congr_run (qdFixed_alike hp h3) fun _ _ _ => rfl

omit hp in
theorem rows_alike {entry entry' : Dec ℤ} {loc : DnsLocation} {n : ℕ} {s : DecState}
    (h : ∀ v ∈ visits (rowStep entry loc) 0 n s, entry v.2 = entry' v.2) :
    rows entry loc n s = rows entry' loc n s := by
  refine call_congr_run (bind_congr_run (loop_congr_run fun v hv => ?_) fun _ _ _ => rfl)
  exact bind_congr_run (h v hv) fun _ _ _ => rfl

theorem decodeSect_alike {sc : Sect} {s : DecState}
    (h : ∀ v ∈ sectVisits env sc s, ∀ c ∈ rrChecks env v.1 v.2, Alike p env.pkt d c) :
    decodeSect env sc s = decodeSect (withPkt env d) sc s := by
  refine bind_congr_run rfl fun t t' hget => ?_
  cases hget
  exact rows_alike fun v hv => dnsRrDecode_alike hp (h (sc, v.2) (List.mem_map_of_mem hv))

theorem decodeSects_alike {scs : List Sect} {s : DecState}
    (h : ∀ v ∈ sectsVisits env scs s, ∀ c ∈ rrChecks env v.1 v.2, Alike p env.pkt d c) :
    decodeSects env scs s = decodeSects (withPkt env d) scs s := by
  induction scs generalizing s with
  | nil => rfl
  | cons sc rest ih =>
    rw [sectsVisits, List.forall_mem_append] at h
    obtain ⟨hfirst, hrest⟩ := h
    have hsect : orReturn (decodeSect env sc) s = orReturn (decodeSect (withPkt env d) sc) s :=
      bind_congr_run (decodeSect_alike hp hfirst) fun _ _ _ => rfl
    refine bind_congr_run hsect fun u t hrun => ?_
    rw [hrun] at hrest
    exact ih hrest

theorem decodeHdr_alike {s : DecState} (h : Alike p env.pkt d (.ask dnsHdrLen)) :
    decodeHdr env s = decodeHdr (withPkt env d) s := by
  refine call_congr_run (askGuard_alike hp h fun hin => ?_)
  exact bind_congr_run (readBytes_alike hp (by rwa [Nat.zero_add]) s) fun _ _ _ => rfl

theorem decodeFront_alike {m : DnsMsg} (h : Alike p env.pkt d (.ask dnsHdrLen))
    (hq : ∀ v ∈ questionVisits env m, ∀ c ∈ qdChecks env v, Alike p env.pkt d c) :
    decodeFront env (initState m) = decodeFront (withPkt env d) (initState m) := by
  refine bind_congr_run rfl fun u s hreset => ?_
  cases hreset
  have hhdr : orReturn (decodeHdr env) (initState (dnsMsgReset m)) =
      orReturn (decodeHdr (withPkt env d)) (initState (dnsMsgReset m)) :=
    bind_congr_run (decodeHdr_alike hp h) fun _ _ _ => rfl
  refine bind_congr_run hhdr fun u t hrun => ?_
  have hrun' : orReturn (decodeHdr env) (initState (dnsMsgReset m)) = .ok u t := hrun
  rw [questionVisits, hrun'] at hq
  have hqd : decodeQd env t = decodeQd (withPkt env d) t := by
    refine bind_congr_run rfl fun t' t'' hget => ?_
    cases hget
    exact rows_alike fun v hv => dnsQdDecode_alike hp (hq v.2 (List.mem_map_of_mem hv))
  exact bind_congr_run hqd fun _ _ _ => rfl

omit hp in
theorem sizeCheck_alike {s : DecState}
    (h : env.needEmsg = true → Alike p env.pkt d (.size (s.dec.udpSize+1))) :
    sizeCheck env s = sizeCheck (withPkt env d) s := by
  refine bind_congr_run rfl fun t t' hget => ?_
  cases hget
  by_cases hn : env.needEmsg = true
  · rcases h hn with ⟨ha, hb⟩ | heq
    · have hb' : ¬ ((withPkt env d).needEmsg ∧ s.dec.udpSize < (withPkt env d).pkt.length) := by
        rintro ⟨-, hlt⟩
        exact absurd hb (Nat.not_lt.mpr hlt)
      rw [if_neg (fun hc => by omega), if_neg hb']
    · have hlen : (withPkt env d).pkt.length = env.pkt.length := heq.symm
      rw [hlen]
      rfl
  · have hn' : ¬ (withPkt env d).needEmsg = true := hn
    rw [if_neg (fun hc => hn hc.1), if_neg (fun hc => hn' hc.1)]

theorem decodeMsg_alike {m : DnsMsg} (h : ∀ c ∈ packetChecks env m, Alike p env.pkt d c) :
    decodeMsg env (initState m) = decodeMsg (withPkt env d) (initState m) := by
  obtain ⟨hhdr, hrest⟩ := List.forall_mem_cons.mp h
  obtain ⟨hq, hrest⟩ := List.forall_mem_append.mp hrest
  obtain ⟨hrr, hsize⟩ := List.forall_mem_append.mp hrest
  have hqd : ∀ v ∈ questionVisits env m, ∀ c ∈ qdChecks env v, Alike p env.pkt d c :=
    fun v hv c hc => hq c (List.mem_flatMap_of_mem hv hc)
  refine call_congr_run (bind_congr_run (decodeFront_alike hp hhdr hqd) fun u s hfront => ?_)
  have hsects : ∀ v ∈ sectsVisits env [.an, .ns, .ar] s, ∀ c ∈ rrChecks env v.1 v.2,
      Alike p env.pkt d c := by
    intro v hv c hc
    apply hrr c
    rw [recordVisits, hfront]
    exact List.mem_flatMap_of_mem hv hc
  refine bind_congr_run (decodeSects_alike hp hsects) fun u t hrun => ?_
  apply sizeCheck_alike
  intro hn
  apply hsize
  apply mem_behind hfront
  apply mem_behind hrun
  rw [if_pos hn]
  exact List.mem_singleton_self _

omit hp in
theorem errChain_over (errs : List DnsErr) : errChain env errs = errChain (withPkt env d) errs := by
  induction errs with
  | nil => rfl
  | cons err rest ih =>
    rw [errChain, errChain, ih]
    rfl

theorem dnsDecGenmsg_alike {s : DecState} (h : Alike p env.pkt d (.ask dnsHdrLen)) :
    dnsDecGenmsg env s = dnsDecGenmsg (withPkt env d) s := by
  have hiff : dnsHdrLen ≤ env.pkt.length ↔ dnsHdrLen ≤ (withPkt env d).pkt.length := ask_iff hp h
  refine bind_congr_run rfl fun t t' hget => ?_
  cases hget
  by_cases hnone : s.dec.errs = []
  · rw [if_pos hnone, if_pos hnone]
    rfl
  · rw [if_neg hnone, if_neg hnone]
    refine bind_congr_run rfl fun _ u _ => ?_
    rw [← errChain_over]
    refine bind_congr_run ?_ fun _ _ _ => rfl
    by_cases hlen : dnsHdrLen ≤ env.pkt.length
    · rw [when_pos hlen, when_pos (hiff.mp hlen)]
      rfl
    · rw [when_neg hlen, when_neg (mt hiff.mpr hlen)]

end Pair

/-- Two packets that begin alike, and on which every check comes out alike, are
validated alike. -/
theorem dnsValidate_alike {p a b : Bytes} (hp : Begin p a b) {emsgLen : ℕ}
    (h : ∀ c ∈ packetChecks (validateEnv a emsgLen) (zeroMsg 0), Alike p a b c) :
    dnsValidate a emsgLen = dnsValidate b emsgLen := by
  have hhdr : Alike p a b (.ask dnsHdrLen) := h _ (List.mem_cons_self ..)
  have hmsg := @decodeMsg_alike (validateEnv a emsgLen) p b hp _ h
  refine bind_congr_run hmsg fun rc t _ => ?_
  have hgen := @dnsDecGenmsg_alike (validateEnv a emsgLen) p b hp t hhdr
  exact bind_congr_run hgen fun _ _ _ => rfl

end DnsPkt.PacketChecks
