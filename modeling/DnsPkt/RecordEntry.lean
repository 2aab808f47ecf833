import DnsPkt.RecordFrame

/-!
# Reaching the RDATA of a record

`Entry` collects what has to hold for a record decode to get as far as the
RDATA: a free slot, an owner name that is accepted and can be stored, the
fixed part inside the packet, and an RDATA end that passes its check.
Without it the decode leaves early. With it the decode continues from a
known state.
-/

set_option autoImplicit false

namespace DnsPkt.RecordEntry
open DnsPkt.CheckedRun DnsPkt.CheckedRun.Run DnsPkt.Octets DnsPkt.Protocol
open DnsPkt.MessageStore DnsPkt.RecordDecoder DnsPkt.RecordRun

def hdrAt (pkt : Bytes) (off : ℕ) : RrHdr :=
  let b := slice pkt off 10
  ⟨decU16 (slice b 0 2), decU16 (slice b 2 2), decU32 (slice b 4 4), decU16 (slice b 8 2)⟩

/-- The RDATA end that the decoder computes, for an owner name that ends at `e`. -/
def rdEndAt (pkt : Bytes) (e : ℕ) : ℕ := (e+10+(hdrAt pkt e).rdlen.toNat) % 2^16

def rdataEnd (pkt : Bytes) (e : ℕ) : ℕ := e+10+(hdrAt pkt e).rdlen.toNat

/-- Moving forward to a 16-bit end means that it did not wrap. -/
theorem rdEndAt_of_le {pkt : Bytes} {e : ℕ} (h : e+10 ≤ rdEndAt pkt e) :
    rdEndAt pkt e = rdataEnd pkt e := by
  have hlt := (hdrAt pkt e).rdlen.toNat_lt
  unfold rdEndAt rdataEnd at *
  omega

structure Entry (env : DecEnv) (sc : Sect) (s : DecState) (text : Bytes) (e : ℕ) : Prop where
  slot : env.loadMsg = true → (s.msg.sect sc).count < dnsMaxRr
  name : NameAt env.pkt s.dec.offset text e
  room : (shown text).length+1 ≤ dnsMsgSize
  stored : env.loadMsg = true → (msgStoreStr s.msg.store (cstr (shown text))).isSome
  hdr : e+10 ≤ env.pkt.length
  rdata : rdEndAt env.pkt e ≤ env.pkt.length

def setHdr (h : RrHdr) (r : DnsRr Ptr) : DnsRr Ptr :=
  { r with rrType := h.rrType, rrClass := h.rrClass, ttl := h.ttl, rdlen := h.rdlen }

def ownerMsg (env : DecEnv) (sc : Sect) (m : DnsMsg) (name : Bytes) : DnsMsg :=
  if env.loadMsg then match msgStoreStr m.store name with
    | some (off, st) => DnsMsg.modifySlot { m with store := st } sc fun r =>
        { r with name := .ref off }
    | none => m
  else m

def enterMsg (env : DecEnv) (sc : Sect) (m : DnsMsg) (name : Bytes) (h : RrHdr) : DnsMsg :=
  if env.loadMsg then (ownerMsg env sc m name).modifySlot sc (setHdr h)
  else ownerMsg env sc m name

def entered (env : DecEnv) (sc : Sect) (s : DecState) (text : Bytes) (e : ℕ) : DecState :=
  { moveTo (put s 0 (shown text ++ [0])) (e+10) with
    msg := enterMsg env sc s.msg (cstr (shown text)) (hdrAt env.pkt e) }

def rrTail (env : DecEnv) (sc : Sect) (h : RrHdr) (n start rdEnd : ℕ) : Dec ℤ := do
  let out ← rrRdata env sc h (n+1) start rdEnd n
  let off ← getOffset
  when (off ≠ rdEnd) (retErr .rr .rdata DnsEc.erdatalen.code)
  when env.loadMsg (modify fun s => { s with msg := s.msg.countUp sc })
  rrReport env sc h out

section Entered

variable (env : DecEnv) (sc : Sect) (s : DecState) (text : Bytes) (e : ℕ)

@[simp] theorem entered_offset : (entered env sc s text e).dec.offset = e+10 := rfl

@[simp] theorem entered_errs : (entered env sc s text e).dec.errs = s.dec.errs :=
  put_errs s 0 _

@[simp] theorem entered_emsg : (entered env sc s text e).dec.emsg = s.dec.emsg :=
  put_emsg s 0 _

theorem entered_shows (h : (shown text).length+1 ≤ dnsMsgSize) :
    Shows (entered env sc s text e) 0 (shown text) := shows_put s (by omega)

end Entered

theorem storeInto_run {sc : Sect} {str : Bytes} {s : DecState} {off : ℕ} {st : NameStore}
    (h : msgStoreStr s.msg.store str = some (off, st)) (f : ℕ → Ptr → DnsRr Ptr → DnsRr Ptr) :
    storeInto sc str f s = .ok (.ref off)
      { s with
        msg := DnsMsg.modifySlot { s.msg with store := st } sc (f s.msg.base (.ref off)) } := by
  simp only [storeInto, h]
  rfl

theorem storeInto_full {sc : Sect} {str : Bytes} {s : DecState}
    (h : msgStoreStr s.msg.store str = none) (f : ℕ → Ptr → DnsRr Ptr → DnsRr Ptr) :
    storeInto sc str f s = .ok .null
      { s with msg := s.msg.modifySlot sc (f s.msg.base .null) } := by
  simp only [storeInto, h]
  rfl

theorem loadStr_run {sc : Sect} {str : Bytes} {s : DecState} {off : ℕ} {st : NameStore}
    (h : msgStoreStr s.msg.store str = some (off, st)) (f : ℕ → Ptr → DnsRr Ptr → DnsRr Ptr) :
    loadStr sc str f s = .ok ()
      { s with
        msg := DnsMsg.modifySlot { s.msg with store := st } sc (f s.msg.base (.ref off)) } := by
  unfold loadStr
  rw [bind_of_ok (storeInto_run h f), when_neg (by simp)]
  rfl

theorem loadStr_full {sc : Sect} {str : Bytes} {s : DecState}
    (h : msgStoreStr s.msg.store str = none) (f : ℕ → Ptr → DnsRr Ptr → DnsRr Ptr) :
    loadStr sc str f s = .exit (-1) { s with msg := s.msg.modifySlot sc (f s.msg.base .null) } := by
  unfold loadStr
  rw [bind_of_ok (storeInto_full h f), when_pos rfl]
  rfl

theorem rrHdr_run {env : DecEnv} {s : DecState} (h : s.dec.offset+10 ≤ env.pkt.length)
    (sc : Sect) :
    rrHdr env sc s = .ok (hdrAt env.pkt s.dec.offset)
      { moveTo s (s.dec.offset+10) with
        msg := if env.loadMsg then s.msg.modifySlot sc (setHdr (hdrAt env.pkt s.dec.offset))
          else s.msg } := by
  unfold rrHdr
  rw [bind_of_ok (getOffset_run s), when_neg (by omega), bind_of_ok (pure_run _ _),
    bind_of_ok (readBytes_run env (.inr h) s)]
  dsimp only
  rw [bind_of_ok (advance_run _ _)]
  cases env.loadMsg <;> rfl

theorem rrHdr_short {env : DecEnv} {s : DecState} (h : env.pkt.length < s.dec.offset+10)
    (sc : Sect) : ∃ c t, rrHdr env sc s = .exit c t := by
  unfold rrHdr
  rw [bind_of_ok (getOffset_run s), when_pos h]
  exact ⟨_, _, rfl⟩

theorem loadName_validate {env : DecEnv} (h : env.loadMsg = false) (sc : Sect) (w : ℕ)
    (f : ℕ → Ptr → DnsRr Ptr → DnsRr Ptr) (s : DecState) : loadName env sc w f s = .ok () s := by
  simp [loadName, h, Run.when]

theorem loadRdata_validate {env : DecEnv} (h : env.loadMsg = false) (sc : Sect)
    (f : Rdata Ptr → Rdata Ptr) (s : DecState) : loadRdata env sc f s = .ok () s := by
  simp [loadRdata, h, Run.when]

theorem loadName_run {env : DecEnv} (h : env.loadMsg = true) {sc : Sect} {w : ℕ} {b : Bytes}
    {s : DecState} (hs : Shows s w b) (f : ℕ → Ptr → DnsRr Ptr → DnsRr Ptr) :
    loadName env sc w f s = loadStr sc (cstr b) f s := by
  unfold loadName
  rw [when_pos h, bind_of_ok hs.msgStr]

theorem rrSlot_run {env : DecEnv} {sc : Sect} {s : DecState}
    (h : env.loadMsg = true → (s.msg.sect sc).count < dnsMaxRr) : rrSlot env sc s = .ok () s := by
  unfold rrSlot
  rw [bind_of_ok (get_run s), when_neg]
  · rfl
  · rintro ⟨hl, hc⟩
    have := h hl
    omega

theorem rrSlot_full {env : DecEnv} {sc : Sect} {s : DecState} (hl : env.loadMsg = true)
    (h : dnsMaxRr ≤ (s.msg.sect sc).count) : rrSlot env sc s = .exit (-1) s := by
  unfold rrSlot
  rw [bind_of_ok (get_run s), when_pos ⟨hl, h⟩]
  rfl

theorem rrName_run {env : DecEnv} {sc : Sect} {s : DecState} {text : Bytes} {e : ℕ}
    (hn : NameAt env.pkt s.dec.offset text e) (hroom : (shown text).length+1 ≤ dnsMsgSize)
    (hst : env.loadMsg = true → (msgStoreStr s.msg.store (cstr (shown text))).isSome) :
    rrName env sc s = .ok (shown text).length
      { moveTo (put s 0 (shown text ++ [0])) e with
        msg := ownerMsg env sc s.msg (cstr (shown text)) } := by
  have hshow : Shows (moveTo (put s 0 (shown text ++ [0])) e) 0 (shown text) :=
    shows_put s (by omega)
  have hmsg : (moveTo (put s 0 (shown text ++ [0])) e).msg = s.msg := put_msg s 0 _
  unfold rrName
  rw [bind_of_ok (nameField_run env .name (w := 0) hn (by omega))]
  by_cases hl : env.loadMsg = true
  · obtain ⟨⟨off, st⟩, hst⟩ := Option.isSome_iff_exists.mp (hst hl)
    rw [bind_of_ok ((loadName_run hl hshow _).trans (loadStr_run (by rw [hmsg]; exact hst) _))]
    simp only [ownerMsg, hl, hst, if_true, hmsg]
    rfl
  · rw [Bool.not_eq_true] at hl
    rw [bind_of_ok (loadName_validate hl sc 0 _ _)]
    simp only [ownerMsg, hl, Bool.false_eq_true, if_false, ← hmsg]
    rfl

theorem rrName_full {env : DecEnv} (sc : Sect) {s : DecState} {text : Bytes} {e : ℕ}
    (hn : NameAt env.pkt s.dec.offset text e) (hroom : (shown text).length+1 ≤ dnsMsgSize)
    (hl : env.loadMsg = true) (hst : msgStoreStr s.msg.store (cstr (shown text)) = none) :
    ∃ t, rrName env sc s = .exit (-1) t := by
  have hshow : Shows (moveTo (put s 0 (shown text ++ [0])) e) 0 (shown text) :=
    shows_put s (by omega)
  have hmsg : (moveTo (put s 0 (shown text ++ [0])) e).msg = s.msg := put_msg s 0 _
  unfold rrName
  rw [bind_of_ok (nameField_run env .name (w := 0) hn (by omega)),
    bind_of_exit ((loadName_run hl hshow _).trans (loadStr_full (by rw [hmsg]; exact hst) _))]
  exact ⟨_, rfl⟩

theorem rrBody_entered {env : DecEnv} {sc : Sect} {s : DecState} {text : Bytes} {e : ℕ}
    (h : Entry env sc s text e) :
    rrBody env sc s = rrTail env sc (hdrAt env.pkt e) (shown text).length (e+10)
      (rdEndAt env.pkt e) (entered env sc s text e) := by
  have hrd := h.rdata
  unfold rdEndAt at hrd
  unfold rrBody
  rw [bind_of_ok (rrSlot_run h.slot), bind_of_ok (rrName_run h.name h.room h.stored),
    bind_of_ok (rrHdr_run (s := { moveTo (put s 0 (shown text ++ [0])) e with
      msg := ownerMsg env sc s.msg (cstr (shown text)) }) h.hdr sc),
    bind_of_ok (getOffset_run _)]
  exact bind_when_neg (Nat.not_lt.mpr hrd) _ _ _

/-- A record decode that does not reach its RDATA leaves early. -/
theorem rrBody_rejected {env : DecEnv} {sc : Sect} {s : DecState}
    (h : ∀ text e, ¬ Entry env sc s text e) : ∃ c t, rrBody env sc s = .exit c t := by
  unfold rrBody
  by_cases hslot : env.loadMsg = true ∧ dnsMaxRr ≤ (s.msg.sect sc).count
  · exact ⟨_, _, bind_of_exit (rrSlot_full hslot.1 hslot.2) _⟩
  have hcount : env.loadMsg = true → (s.msg.sect sc).count < dnsMaxRr := by
    intro hl
    by_contra hc
    exact hslot ⟨hl, by omega⟩
  rw [bind_of_ok (rrSlot_run hcount)]
  by_cases hn : ∀ text e, NameAt env.pkt s.dec.offset text e →
      dnsMsgSize < 0+(shown text).length+1
  · obtain ⟨c, t, hx⟩ := nameField_exit env .name (Nat.zero_le _) hn
    exact ⟨c, t, bind_of_exit (bind_of_exit hx _) _⟩
  push Not at hn
  obtain ⟨text, e, hname, hroom⟩ := hn
  by_cases hst : env.loadMsg = true → (msgStoreStr s.msg.store (cstr (shown text))).isSome
  · rw [bind_of_ok (rrName_run hname (by omega) hst)]
    by_cases hhdr : e+10 ≤ env.pkt.length
    · rw [bind_of_ok (rrHdr_run (s := { moveTo (put s 0 (shown text ++ [0])) e with
        msg := ownerMsg env sc s.msg (cstr (shown text)) }) hhdr sc), bind_of_ok (getOffset_run _)]
      have hrd : env.pkt.length < rdEndAt env.pkt e := by
        by_contra hrd
        exact h text e ⟨hcount, hname, by omega, hst, hhdr, by omega⟩
      unfold rdEndAt at hrd
      exact ⟨_, _, bind_when_pos hrd _ _ _⟩
    · obtain ⟨c, t, hx⟩ := rrHdr_short
        (s := { moveTo (put s 0 (shown text ++ [0])) e with
          msg := ownerMsg env sc s.msg (cstr (shown text)) }) (Nat.lt_of_not_le hhdr) sc
      exact ⟨c, t, bind_of_exit hx _⟩
  · push Not at hst
    obtain ⟨t, ht⟩ := rrName_full sc hname (by omega) hst.1 (by simpa using hst.2)
    exact ⟨-1, t, bind_of_exit ht _⟩

theorem Entry.unique {env : DecEnv} {sc : Sect} {s : DecState} {text text' : Bytes} {e e' : ℕ}
    (h : Entry env sc s text e) (h' : Entry env sc s text' e') : text = text' ∧ e = e' :=
  h.name.unique h'.name

end DnsPkt.RecordEntry
