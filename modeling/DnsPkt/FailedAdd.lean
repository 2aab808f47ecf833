import DnsPkt.AlikeBuild
import DnsPkt.MessageEncoder

/-!
# Calls that fail

A call that fails for want of a section, of a free slot or of room for the
owner name has stored nothing: it leaves at most a null name in a free slot,
which the next record there overwrites. A call that fails later keeps the room
of the strings that it stored. The loss shows when the rest of the store is
used up byte by byte.
-/

set_option autoImplicit false

namespace DnsPkt.FailedAdd
open DnsPkt.CheckedRun DnsPkt.CheckedRun.Run DnsPkt.PairedRun DnsPkt.Octets DnsPkt.Protocol
open DnsPkt.MessageStore DnsPkt.MessageSlots DnsPkt.MessageBuild DnsPkt.MessageEncoder
open DnsPkt.AlikeMessages DnsPkt.AlikeBuild

inductive Op where
  | addQd (qname : Str) (qtype qclass : UInt16)
  | addRr (code : ℤ) (src : Option (DnsRr Str))
  | encode (buf : Bytes)

/-- The code of a call and the buffer it leaves. An encoding whose accesses are undefined
has neither. -/
def Op.run (m : DnsMsg) : Op → Option (ℤ × Bytes) × DnsMsg
  | .addQd qname qtype qclass =>
    let p := dnsAddQd m qname qtype qclass
    (some (p.1, []), p.2)
  | .addRr code src =>
    let p := dnsAddRr m code src
    (some (p.1, []), p.2)
  | .encode buf =>
    ((dnsMsgEncode m buf).result.map fun p => (p.1, p.2.pktBuf), { m with hdr := syncHdr m })

def replies (m : DnsMsg) : List Op → List (Option (ℤ × Bytes))
  | [] => []
  | op :: ops => (op.run m).1 :: replies (op.run m).2 ops

/-- No later call tells the two messages apart. -/
def Unnoticed (m t : DnsMsg) : Prop := ∀ ops, replies t ops = replies m ops

def Unstorable (st : NameStore) (name : Str) : Prop :=
  dnsNameMaxstr < name.bytes.length ∨ dnsMaxPdusize < st.len+name.bytes.length+1

/-- There is no such section, its slots are used up or the owner name has no place. -/
def FailsFirst (m : DnsMsg) (code : ℤ) (src : DnsRr Str) : Prop :=
  ∀ sc, sectOfCode code = some sc →
    dnsMaxRr ≤ (m.sect sc).count ∨ Unstorable m.store src.name

theorem unstorable_iff {st : NameStore} {name : Str} :
    Unstorable st name ↔ msgStoreStr st name.bytes = none := by
  rw [← Option.not_isSome_iff_eq_none, msgStoreStr_isSome, Unstorable]
  omega

def forget (sc : Sect) (m : DnsMsg) : DnsMsg :=
  m.modifySlot sc fun r => { r with name := .null }

theorem forget_eq (sc : Sect) (m : DnsMsg) :
    forget sc m = stage m sc m.store { slot m sc with name := .null } := modifySlot_eq m sc _

section Call

variable {m : DnsMsg} {sc : Sect} {src : DnsRr Str}

theorem addRr_full (h : dnsMaxRr ≤ (m.sect sc).count) :
    dnsSectAddRr sc src m = .exit (-1) m := by
  unfold dnsSectAddRr
  rw [bind_of_ok (get_run m), bind_when_pos h]
  rfl

theorem addRr_unstored (hfree : (m.sect sc).count < dnsMaxRr)
    (h : msgStoreStr m.store src.name.bytes = none) :
    dnsSectAddRr sc src m = .exit (-1) (forget sc m) := by
  have hs : storeStr src.name.bytes m = .ok .null m := by
    unfold storeStr
    rw [h]
  unfold dnsSectAddRr
  rw [bind_of_ok (get_run m), bind_when_neg (Nat.not_le.mpr hfree), bind_of_ok hs]
  rfl

def headed (m : DnsMsg) (sc : Sect) (src : DnsRr Str) (p : Ptr) : DnsRr Ptr :=
  { slot m sc with name := p, rrType := src.rrType, rrClass := src.rrClass, ttl := src.ttl }

theorem addRr_stored (hfree : (m.sect sc).count < dnsMaxRr) {off : ℕ} {st : NameStore}
    (h : msgStoreStr m.store src.name.bytes = some (off, st)) :
    dnsSectAddRr sc src m = (addRdata sc src >>= fun _ => modify (fun m => m.countUp sc) >>=
      fun _ => pure 0) (stage m sc st (headed m sc src (.ref off))) := by
  have hs : storeStr src.name.bytes m = .ok (.ref off) { m with store := st } := by
    unfold storeStr
    rw [h]
  have hself : { m with store := st } = stage m sc st (slot m sc) := by
    rw [← stage_setStore m sc m.store (slot m sc) st, stage_self]
  unfold dnsSectAddRr
  rw [bind_of_ok (get_run m), bind_when_neg (Nat.not_le.mpr hfree), bind_of_ok hs, hself,
    bind_of_ok (modifySlot_stage _), bind_when_neg (by simp), bind_of_ok (modifySlot_stage _)]
  rfl

end Call

/-- A relation of messages that a call for section `sc` cannot see and keeps. -/
structure Lockstep (sc : Sect) (I : DnsMsg → DnsMsg → Prop) : Prop where
  store : ∀ {a b}, I a b → b.store = a.store
  base : ∀ {a b}, I a b → b.base = a.base
  count : ∀ {a b}, I a b → (b.sect sc).count = (a.sect sc).count
  slot : ∀ {a b}, I a b → slot b sc = slot a sc
  setStore : ∀ {a b}, I a b → ∀ st, I { a with store := st } { b with store := st }
  write : ∀ {a b}, I a b → ∀ f, I (a.modifySlot sc f) (b.modifySlot sc f)
  countUp : ∀ {a b}, I a b → I (a.countUp sc) (b.countUp sc)

section Lockstep

variable {sc : Sect} {I : DnsMsg → DnsMsg → Prop} (hI : Lockstep sc I)
include hI

theorem lock_storeStr (str : Bytes) : Steps I I I (storeStr str) := by
  refine ⟨fun {a b} h => ?_⟩
  unfold storeStr
  rw [hI.store h]
  cases msgStoreStr a.store str with
  | none => exact .ok h
  | some q => exact .ok (hI.setStore h q.2)

theorem lock_modifySlot (f : DnsRr Ptr → DnsRr Ptr) : Steps I I I (modifySlot sc f) :=
  steps_modify fun _ _ h => hI.write h f

theorem lock_modifyRdata (f : ℕ → Rdata Ptr → Rdata Ptr) : Steps I I I (modifyRdata sc f) := by
  refine ⟨fun {a b} h => .ok ?_⟩
  dsimp only
  rw [hI.base h]
  exact hI.write h _

omit hI in
theorem lock_fail (p : Prop) [Decidable p] : Steps I I I (when p (exit (-1)) : Build Unit) :=
  steps_when p fun _ => steps_exit (fun _ _ h => h) (-1)

theorem lock_addNameUnchecked (str : Str) (f : ℕ → Ptr → Rdata Ptr → Rdata Ptr) :
    Steps I I I (addNameUnchecked sc str f) :=
  (lock_storeStr hI _).bind fun _ => lock_modifyRdata hI _

theorem lock_addName (str : Str) (f : ℕ → Ptr → Rdata Ptr → Rdata Ptr) :
    Steps I I I (addName sc str f) :=
  (lock_storeStr hI _).bind fun _ => (lock_modifyRdata hI _).bind fun _ => lock_fail _

theorem lock_addTxt (strs : List Str) : Steps I I I (addTxt sc strs) := by
  induction strs with
  | nil => exact steps_pure _
  | cons str rest ih =>
    refine ⟨fun {a b} h => ?_⟩
    rw [addTxt_cons, addTxt_cons, hI.slot h]
    exact ((lock_fail _).bind fun _ => (lock_storeStr hI _).bind fun _ =>
      (lock_modifyRdata hI _).bind fun _ => (lock_fail _).bind fun _ =>
      (lock_modifyRdata hI _).bind fun _ => ih).run h

theorem lock_addRdata (src : DnsRr Str) : Steps I I I (addRdata sc src) := by
  unfold addRdata
  cases rrKind src.rrType with
  | a | aaaa | opt => exact lock_modifyRdata hI _
  | ns | cname | ptr => exact lock_addName hI _ _
  | soa =>
    exact (lock_addName hI _ _).bind fun _ => (lock_addNameUnchecked hI _ _).bind fun _ =>
      lock_modifyRdata hI _
  | hinfo => exact (lock_addNameUnchecked hI _ _).bind fun _ => lock_addNameUnchecked hI _ _
  | mx | srv => exact (lock_modifyRdata hI _).bind fun _ => lock_addName hI _ _
  | txt => exact lock_addTxt hI _
  | any | other => exact steps_pure _

theorem lock_dnsSectAddRr (src : DnsRr Str) : Steps I I I (dnsSectAddRr sc src) := by
  refine ⟨fun {a b} h => paired_get_bind ?_⟩
  rw [hI.count h]
  exact ((lock_fail _).bind fun _ => (lock_storeStr hI _).bind fun _ =>
    (lock_modifySlot hI _).bind fun _ => (lock_fail _).bind fun _ =>
    (lock_modifySlot hI _).bind fun _ => (lock_addRdata hI src).bind fun _ =>
    (steps_modify fun _ _ h => hI.countUp h).bind fun _ => steps_pure _).run h

end Lockstep

/-- What a call for one section does, it does whatever name the slot of another holds. -/
theorem lockstep_forget {sc sc' : Sect} (hne : sc' ≠ sc) :
    Lockstep sc' fun a b => b = forget sc a where
  store := by
    rintro a b rfl
    cases sc <;> rfl
  base := by
    rintro a b rfl
    cases sc <;> rfl
  count := by
    rintro a b rfl
    rw [forget_eq, stage_count]
  slot := by
    rintro a b rfl
    rw [forget_eq, slot, stage_sect_ne _ _ _ _ hne, slot]
  setStore := by
    rintro a b rfl st
    cases sc <;> rfl
  write := by
    rintro a b rfl f
    cases sc <;> cases sc' <;> first | rfl | exact absurd rfl hne
  countUp := by
    rintro a b rfl
    unfold DnsMsg.countUp
    cases sc <;> cases sc' <;> first | exact absurd rfl hne |
      (dsimp only [forget, DnsMsg.modifySlot, DnsMsg.setSect, DnsMsg.sect]; split <;> rfl)

theorem stage_stage (m : DnsMsg) (sc : Sect) (st st' : NameStore) (r r' : DnsRr Ptr) :
    stage (stage m sc st r) sc st' r' = stage m sc st' r' := by
  have h := stage_modifySlot m sc st' r fun _ => r'
  rwa [← stage_setStore m sc st r st'] at h

/-- The next record of the section overwrites the name. -/
theorem addRr_forget (sc : Sect) (src : DnsRr Str) (m : DnsMsg) :
    Paired (fun _ a b => b = a) (fun a b => b = a ∨ b = forget sc a)
      (dnsSectAddRr sc src m) (dnsSectAddRr sc src (forget sc m)) := by
  have hcount : ((forget sc m).sect sc).count = (m.sect sc).count := by
    rw [forget_eq, stage_count]
  have hstore : (forget sc m).store = m.store := by rw [forget_eq, stage_store]
  by_cases hfull : dnsMaxRr ≤ (m.sect sc).count
  · rw [addRr_full hfull, addRr_full (hcount ▸ hfull)]
    exact .exit (.inr rfl)
  have hfree := Nat.lt_of_not_le hfull
  have hslot : slot (forget sc m) sc = { slot m sc with name := .null } := by
    rw [forget_eq, slot_stage _ _ hfree]
  cases h : msgStoreStr m.store src.name.bytes with
  | none =>
    rw [addRr_unstored hfree h, addRr_unstored (hcount ▸ hfree) (hstore ▸ h)]
    refine .exit (.inl ?_)
    rw [forget_eq sc (forget sc m), hslot, hstore, forget_eq, stage_stage]
  | some q =>
    rw [addRr_stored hfree h, addRr_stored (hcount ▸ hfree) (hstore ▸ h)]
    have hsame : stage (forget sc m) sc q.2 (headed (forget sc m) sc src (.ref q.1)) =
        stage m sc q.2 (headed m sc src (.ref q.1)) := by
      rw [headed, hslot, forget_eq, stage_stage, headed]
    rw [hsame]
    generalize (addRdata sc src >>= _) _ = o
    cases o with
    | ok a t => exact .ok rfl
    | exit e t => exact .exit (.inl rfl)
    | fault c => exact .fault c

def Forgot (sc : Sect) (a b : DnsMsg) : Prop := b = a ∨ b = forget sc a

theorem forgot_addRr {sc : Sect} {a b : DnsMsg} (h : Forgot sc a b) (code : ℤ)
    (src : Option (DnsRr Str)) : (dnsAddRr b code src).1 = (dnsAddRr a code src).1 ∧
      Forgot sc (dnsAddRr a code src).2 (dnsAddRr b code src).2 := by
  rcases h with rfl | rfl
  · exact ⟨rfl, .inl rfl⟩
  unfold dnsAddRr
  cases sectOfCode code with
  | none => exact ⟨rfl, .inr rfl⟩
  | some sc' =>
    cases src with
    | none => exact ⟨rfl, .inr rfl⟩
    | some src =>
      have hpair : Paired (fun _ => Forgot sc) (Forgot sc) (dnsSectAddRr sc' src a)
          (dnsSectAddRr sc' src (forget sc a)) := by
        by_cases hsc : sc' = sc
        · subst hsc
          exact (addRr_forget sc' src a).imp (fun _ _ _ h => .inl h) fun _ _ h => h
        · exact ((lock_dnsSectAddRr (lockstep_forget hsc) src).run rfl).imp
            (fun _ _ _ h => .inr h) fun _ _ h => .inr h
      dsimp only
      generalize dnsSectAddRr sc' src a = o at hpair
      generalize dnsSectAddRr sc' src (forget sc a) = o' at hpair
      cases hpair with
      | ok h => exact ⟨rfl, h⟩
      | exit h => exact ⟨rfl, h⟩
      | fault c => exact c.elim

theorem forgot_addQd {sc : Sect} {a b : DnsMsg} (h : Forgot sc a b) (qname : Str)
    (qtype qclass : UInt16) : (dnsAddQd b qname qtype qclass).1 =
    (dnsAddQd a qname qtype qclass).1 ∧
      Forgot sc (dnsAddQd a qname qtype qclass).2 (dnsAddQd b qname qtype qclass).2 := by
  rcases h with rfl | rfl
  · exact ⟨rfl, .inl rfl⟩
  have hlen : (forget sc a).qdLen = a.qdLen := by rw [forget_eq, stage_qdLen]
  have hstore : (forget sc a).store = a.store := by rw [forget_eq, stage_store]
  unfold dnsAddQd dnsAddQdn
  by_cases hfree : a.qdLen+1 ≤ dnsMaxQd
  · rw [dif_pos hfree, dif_pos (hlen ▸ hfree), hstore]
    cases msgStoreStr a.store qname.bytes with
    | none => exact ⟨rfl, .inr (by cases sc <;> rfl)⟩
    | some q => exact ⟨rfl, .inr (by cases sc <;> rfl)⟩
  · rw [dif_neg hfree, dif_neg (hlen ▸ hfree)]
    exact ⟨rfl, .inr rfl⟩

theorem encode_forget (sc : Sect) (m : DnsMsg) (buf : Bytes) :
    dnsMsgEncode (forget sc m) buf = dnsMsgEncode m buf := by
  have hrec (sc' : Sect) : records (forget sc m) sc' = records m sc' := by
    rw [forget_eq, records_stage]
  have hstore : (forget sc m).store = m.store := by rw [forget_eq, stage_store]
  have hqd : encodeQd (forget sc m) = encodeQd m := by cases sc <;> rfl
  have hhdr : encodeHdr (forget sc m) = encodeHdr m := by cases sc <;> rfl
  simp only [dnsMsgEncode, encodeMsg, dnsSectEnc, hrec, hstore, hqd, hhdr]

theorem forgot_op {sc : Sect} {a b : DnsMsg} (h : Forgot sc a b) (op : Op) :
    (op.run b).1 = (op.run a).1 ∧ Forgot sc (op.run a).2 (op.run b).2 := by
  cases op with
  | addQd qname qtype qclass =>
    have hq := forgot_addQd h qname qtype qclass
    exact ⟨congrArg (fun rc => some (rc, [])) hq.1, hq.2⟩
  | addRr code src =>
    have hr := forgot_addRr h code src
    exact ⟨congrArg (fun rc => some (rc, [])) hr.1, hr.2⟩
  | encode buf =>
    rcases h with rfl | rfl
    · exact ⟨rfl, .inl rfl⟩
    · refine ⟨?_, .inr (by cases sc <;> rfl)⟩
      simp only [Op.run, encode_forget]

theorem forgot_unnoticed {sc : Sect} {a b : DnsMsg} (h : Forgot sc a b) : Unnoticed a b := by
  intro ops
  induction ops generalizing a b with
  | nil => rfl
  | cons op ops ih =>
    obtain ⟨hreply, hnext⟩ := forgot_op h op
    rw [replies, replies, hreply, ih hnext]

/-- A call that fails behind the owner name has used up room. -/
theorem addRr_late {m t : DnsMsg} {sc : Sect} {src : DnsRr Str} {rc : ℤ}
    (hfree : (m.sect sc).count < dnsMaxRr) (hs : ¬ Unstorable m.store src.name)
    (h : dnsSectAddRr sc src m = .exit rc t) :
    m.store.len < t.store.len ∧ (t.sect sc).count = (m.sect sc).count := by
  rw [unstorable_iff] at hs
  obtain ⟨⟨off, st⟩, hst⟩ := Option.ne_none_iff_exists'.mp hs
  rw [addRr_stored hfree hst] at h
  rcases (bind_exit _ _ _ _ _).mp h with h | ⟨_, _, -, h⟩
  · obtain ⟨-, hleave⟩ := (keeps_addRdata (stageFrame_fills m sc) src).exit h
    obtain ⟨st', r, hlater, rfl⟩ := hleave st _ rfl
    have hlen := (msgStoreStr_some hst).2.2.1
    have hle := hlater.len
    rw [stage_store, stage_count]
    exact ⟨by omega, rfl⟩
  · cases h

def longName : Str := some ⟨List.replicate 254 97, fun h => by cases List.eq_of_mem_replicate h⟩

/-- A record whose owner name is stored, in one byte, before its target proves too long. -/
def costlyRr : DnsRr Str :=
  { zeroRr (none : Str) with
    rrType := 2
    rdata := { zeroRdata none with nsName := longName } }

def lastRr : DnsRr Str := { zeroRr (none : Str) with rrType := 1 }

section Probe

variable {m : DnsMsg} {sc : Sect}

theorem costly_run (hfree : (m.sect sc).count < dnsMaxRr) :
    ∃ t, dnsSectAddRr sc costlyRr m = .exit (-1) t ∧
      t.store.len = min (m.store.len+1) dnsMaxPdusize ∧ (t.sect sc).count = (m.sect sc).count := by
  have hfits := m.store.fits
  have hsome := @msgStoreStr_isSome m.store costlyRr.name.bytes
  cases h : msgStoreStr m.store costlyRr.name.bytes with
  | none =>
    have hfull : ¬ m.store.len+0+1 ≤ dnsMaxPdusize := fun hle => by
      rw [h] at hsome
      exact absurd (hsome.mpr ⟨Nat.zero_le _, hle⟩) (by simp)
    refine ⟨_, addRr_unstored hfree h, ?_, ?_⟩
    · rw [forget_eq, stage_store]
      omega
    · rw [forget_eq, stage_count]
  | some q =>
    have hlen : q.2.len = m.store.len+0+1 := (msgStoreStr_some h).2.2.1
    have hroom := q.2.fits
    obtain ⟨p, st, hp, hs⟩ := storeStr_stage m sc q.2 (headed m sc costlyRr (.ref q.1))
      costlyRr.rdata.nsName.bytes
    have hlong : costlyRr.rdata.nsName.bytes.length = 254 := List.length_replicate
    rcases hp with ⟨off, hp, -⟩ | ⟨-, rfl, rfl⟩
    · have hle : costlyRr.rdata.nsName.bytes.length ≤ 253 := (msgStoreStr_some hp).2.2.2
      omega
    have hkind : rrKind costlyRr.rrType = .ns := rfl
    have hexit : addRdata sc costlyRr (stage m sc q.2 (headed m sc costlyRr (.ref q.1))) =
        .exit (-1) (stage m sc q.2 { headed m sc costlyRr (.ref q.1) with
          rdata := Rdata.setNsName m.base .null (slot m sc).rdata }) := by
      rw [addRdata, hkind]
      dsimp only
      rw [addName, bind_of_ok hs, bind_of_ok (modifyRdata_stage _)]
      rfl
    refine ⟨_, (addRr_stored hfree h).trans (bind_of_exit hexit _), ?_, ?_⟩
    · rw [stage_store]
      omega
    · rw [stage_count]

theorem last_run (hfree : (m.sect sc).count < dnsMaxRr) :
    (returned (dnsSectAddRr sc lastRr m)).1 =
      if m.store.len+1 ≤ dnsMaxPdusize then 0 else -1 := by
  have hsome := @msgStoreStr_isSome m.store lastRr.name.bytes
  cases h : msgStoreStr m.store lastRr.name.bytes with
  | none =>
    rw [h] at hsome
    rw [addRr_unstored hfree h, if_neg]
    · rfl
    · intro hle
      exact absurd (hsome.mpr ⟨Nat.zero_le _, hle⟩) (by simp)
  | some q =>
    rw [h] at hsome
    have hle : m.store.len+0+1 ≤ dnsMaxPdusize := (hsome.mp rfl).2
    rw [addRr_stored hfree h, if_pos hle]
    have hkind : rrKind lastRr.rrType = .a := rfl
    rw [addRdata, hkind]
    dsimp only
    rw [bind_of_ok (modifyRdata_stage _)]
    rfl

/-- Calls that use up the store byte by byte, and one that needs a byte. -/
def probe (code : ℤ) (k : ℕ) : List Op :=
  List.replicate k (.addRr code (some costlyRr)) ++ [.addRr code (some lastRr)]

theorem replies_probe {code : ℤ} (hsc : sectOfCode code = some sc) (k : ℕ)
    (hfree : (m.sect sc).count < dnsMaxRr) : replies m (probe code k) =
      List.replicate k (some (-1, [])) ++
        [some (if m.store.len+k+1 ≤ dnsMaxPdusize then 0 else -1, [])] := by
  induction k generalizing m with
  | zero =>
    have hlast := last_run hfree
    simp only [probe, List.replicate_zero, List.nil_append, replies, Op.run, dnsAddRr, hsc, hlast,
      Nat.add_zero]
  | succ k ih =>
    obtain ⟨t, hrun, hlen, hcount⟩ := costly_run hfree
    have hadd : dnsAddRr m code (some costlyRr) = (-1, t) := by
      simp only [dnsAddRr, hsc, hrun, returned]
    have hfits := m.store.fits
    have hiff : t.store.len+k+1 ≤ dnsMaxPdusize ↔ m.store.len+(k+1)+1 ≤ dnsMaxPdusize := by
      omega
    have htail := ih (hcount ▸ hfree)
    simp only [hiff] at htail
    simp only [probe, List.replicate_succ, List.cons_append, replies, Op.run, hadd]
    rw [← htail]
    rfl

end Probe

/-- A failed call goes unnoticed exactly when it failed before it stored anything. -/
theorem failed_add_unnoticed_iff {m t : DnsMsg} {code : ℤ} {src : DnsRr Str}
    (h : dnsAddRr m code (some src) = (-1, t)) : Unnoticed m t ↔ FailsFirst m code src := by
  unfold dnsAddRr at h
  unfold FailsFirst
  cases hsc : sectOfCode code with
  | none =>
    rw [hsc] at h
    cases h
    exact iff_of_true (fun _ => rfl) fun _ hc => by cases hc
  | some sc =>
    rw [hsc] at h
    dsimp only at h
    simp only [Option.some.injEq, forall_eq']
    by_cases hfull : dnsMaxRr ≤ (m.sect sc).count
    · rw [addRr_full hfull] at h
      cases h
      exact iff_of_true (fun _ => rfl) (.inl hfull)
    have hfree := Nat.lt_of_not_le hfull
    by_cases hname : Unstorable m.store src.name
    · rw [addRr_unstored hfree (unstorable_iff.mp hname)] at h
      cases h
      exact iff_of_true (forgot_unnoticed (.inr rfl)) (.inr hname)
    cases hrun : dnsSectAddRr sc src m with
    | fault c => exact c.elim
    | ok rc t' =>
      rw [hrun] at h
      have hrc : rc = -1 := congrArg Prod.fst h
      have := (dnsSectAddRr_front hrun).1
      omega
    | exit rc t' =>
      rw [hrun] at h
      obtain rfl : t' = t := congrArg Prod.snd h
      obtain ⟨hlen, hcount⟩ := addRr_late hfree hname hrun
      refine iff_of_false (fun hsame => ?_) (by simp [hfree, hname])
      -- One byte is left for the last record, unless the failed call has taken it.
      have hprobe := hsame (probe code (dnsMaxPdusize-m.store.len-1))
      have hfits := t'.store.fits
      rw [replies_probe hsc _ hfree, replies_probe hsc _ (hcount ▸ hfree), if_neg (by omega),
        if_pos (by omega)] at hprobe
      have hlast := List.append_cancel_left hprobe
      simp at hlast

def longOwnerRr : DnsRr Str := { zeroRr (none : Str) with rrType := 1, name := longName }

theorem long_owner_unnoticed : ∃ t, dnsAddRr (zeroMsg 0) 1 (some longOwnerRr) = (-1, t) ∧
    Unnoticed (zeroMsg 0) t := by
  have hrun : dnsAddRr (zeroMsg 0) 1 (some longOwnerRr) = (-1, _) := code_pair (by decide +kernel)
  refine ⟨_, hrun, (failed_add_unnoticed_iff hrun).mpr fun _ _ => .inr (.inl ?_)⟩
  have hlen : longOwnerRr.name.bytes.length = 254 := List.length_replicate
  rw [hlen]
  decide

def shortText : Str := some ⟨[97], by decide⟩

def textRr (strs : List Str) : DnsRr Str :=
  { zeroRr (none : Str) with
    name := shortText
    rrType := 16
    rdata := { zeroRdata none with txtNumStr := strs.length, txtStr := strs } }

/-- The first text of a refused record appears in the next one. -/
theorem refused_text_reappears :
    ∃ t, dnsAddRr (zeroMsg 0) 1 (some (textRr [shortText, longName])) = (-1, t) ∧
      ¬ Unnoticed (zeroMsg 0) t := by
  have hrun : dnsAddRr (zeroMsg 0) 1 (some (textRr [shortText, longName])) = (-1, _) :=
    code_pair (by decide +kernel)
  refine ⟨_, hrun, fun hsame => ?_⟩
  have hops := hsame [.addRr 1 (some (textRr [shortText])), .encode (List.replicate 600 0)]
  have hcodes := congrArg (List.map (Option.map Prod.fst)) hops
  revert hcodes
  decide +kernel

end DnsPkt.FailedAdd
