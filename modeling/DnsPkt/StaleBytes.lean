import DnsPkt.EncodedFrames

/-!
# Old contents of the buffer in the packet

How an encoding ends and the number it returns do not depend on what the
buffer held before. The bytes of the packet do, when it has a record whose
RDATA is not fully written: `MX` leaves two of its four reserved bytes, and
`HINFO` writes its second string over the first.
-/

set_option autoImplicit false

namespace DnsPkt.StaleBytes
open DnsPkt.CheckedRun DnsPkt.CheckedRun.Run DnsPkt.Octets DnsPkt.Protocol
open DnsPkt.MessageStore DnsPkt.MessageSlots DnsPkt.NameDecoder DnsPkt.NameEncoder
open DnsPkt.MessageEncoder DnsPkt.WriteTrace DnsPkt.EncoderTrace DnsPkt.RecordTrace
open DnsPkt.MessageHistory DnsPkt.EncodedFrames

variable {m : DnsMsg} {b : Bytes}

theorem dnsMsgEncode_of_ok {t : DnsEnc} (h : encodeMsg m (initEnc b) = .ok () t) :
    dnsMsgEncode m b = .ok (t.pktLen : ℤ) t := by
  refine (call_ok _ _ _ _).mpr (.inl ?_)
  rw [bind_of_ok h, bind_of_ok (get_run t)]
  rfl

theorem dnsMsgEncode_of_exit {t : DnsEnc} {rc : ℤ} (h : encodeMsg m (initEnc b) = .exit rc t) :
    dnsMsgEncode m b = .ok rc t :=
  (call_ok _ _ _ _).mpr (.inr (bind_of_exit h _))

theorem dnsMsgEncode_of_fault {c : Fault} (h : encodeMsg m (initEnc b) = .fault c) :
    dnsMsgEncode m b = .fault c :=
  (call_fault _ _ _).mpr (bind_of_fault h _)

/-- Two encodings that return the same number or meet the same fault. -/
def SameEnd (x y : Outcome DnsEnc ℤ Fault ℤ) : Prop :=
  x.result.map Prod.fst = y.result.map Prod.fst ∧ x.cause = y.cause

theorem same_end (hm : Encodable m) {a b : Bytes} (h : a.length = b.length) :
    SameEnd (dnsMsgEncode m a) (dnsMsgEncode m b) := by
  have hb : b.length = (encBuffer.buf (initEnc a)).length := h.symm
  cases traced_encodeMsg hm a with
  | ok u ws t hw hbuf hq run =>
    rw [dnsMsgEncode_of_ok (run a rfl), dnsMsgEncode_of_ok (run b hb)]
    exact ⟨rfl, rfl⟩
  | exit e he run =>
    obtain ⟨t, ht⟩ := run a rfl
    obtain ⟨u, hu⟩ := run b hb
    rw [dnsMsgEncode_of_exit ht, dnsMsgEncode_of_exit hu]
    exact ⟨rfl, rfl⟩
  | fault c hc run =>
    rw [dnsMsgEncode_of_fault (run a rfl), dnsMsgEncode_of_fault (run b hb)]
    exact ⟨rfl, rfl⟩

/-- The packet of `n` bytes in the buffer of `t` is the same for all contents of a buffer of
this length. -/
def Determined (m : DnsMsg) (len : ℕ) (n : ℤ) (t : DnsEnc) : Prop :=
  ∀ b : Bytes, b.length = len → ∃ u, dnsMsgEncode m b = .ok n u ∧
    u.pktBuf.take n.toNat = t.pktBuf.take n.toNat

def altered (b : Bytes) (j : ℕ) : Bytes := b.modify j (· + 1)

theorem altered_ne {b : Bytes} {j : ℕ} (h : j < b.length) : (altered b j)[j]? ≠ b[j]? := by
  rw [altered, List.getElem?_modify_eq, List.getElem?_eq_getElem h]
  simp

theorem determined_iff (hm : Encodable m) {a : Bytes} {n : ℤ} {t : DnsEnc}
    (hrun : dnsMsgEncode m a = .ok n t) (hn : 0 ≤ n) :
    Determined m a.length n t ↔ ∀ rr ∈ allRecords m, Gapless m.store rr := by
  obtain ⟨henc, rfl⟩ := dnsMsgEncode_run hrun hn
  obtain ⟨ws, hw, hbuf, ⟨hseg, -⟩, hall⟩ := (traced_encodeMsg hm a).of_ok henc
  have hw : Within a.length ws := hw
  have hbuf : t.pktBuf = writes ws a := hbuf
  have hfits : t.pktLen ≤ a.length := hseg.fits
  have hother (b : Bytes) (hb : b.length = a.length) :
      dnsMsgEncode m b = .ok (t.pktLen : ℤ) { t with pktBuf := writes ws b } :=
    dnsMsgEncode_of_ok (hall b hb)
  constructor
  · intro hdet
    by_contra hgap
    obtain ⟨j, -, hlt, hnot⟩ := hseg.gap hgap
    have hlen : (altered a j).length = a.length := List.length_modify _ _ _
    obtain ⟨u, hu, heq⟩ := hdet (altered a j) hlen
    rw [hother _ hlen] at hu
    cases hu
    have hj := congrArg (fun l => l[j]?) heq
    simp only [Int.toNat_natCast, List.getElem?_take_of_lt hlt, hbuf] at hj
    rw [get_writes_of_not_covers (hlen ▸ hw) hnot, get_writes_of_not_covers hw hnot] at hj
    exact altered_ne (by omega) hj
  · intro hfull b hb
    refine ⟨_, hother b hb, List.ext_getElem? fun i => ?_⟩
    rw [Int.toNat_natCast, hbuf]
    by_cases hi : i < t.pktLen
    · rw [List.getElem?_take_of_lt hi, List.getElem?_take_of_lt hi]
      exact get_writes_of_covers (hb ▸ hw) hb (hseg.full hfull i (Nat.zero_le _) hi)
    · rw [List.getElem?_take_eq_none (by omega), List.getElem?_take_eq_none (by omega)]

/-- Encodings into buffers of one length end alike. The packet is determined by the message
exactly when no counted record is of type `MX` and every `HINFO` has an empty first string. -/
theorem stale_bytes_iff {base : ℕ} {cs : List Call} {rcs : List ℤ} {m : DnsMsg}
    (hm : runCalls (zeroMsg base) cs = some (rcs, m)) :
    (∀ a b : Bytes, a.length = b.length → SameEnd (dnsMsgEncode m a) (dnsMsgEncode m b)) ∧
      ∀ (a : Bytes) (n : ℤ) (t : DnsEnc), dnsMsgEncode m a = .ok n t → 0 ≤ n →
        (Determined m a.length n t ↔ ∀ rr ∈ allRecords m, Gapless m.store rr) :=
  ⟨fun _ _ h => same_end (encodable_runCalls hm) h,
    fun _ _ _ hrun hn => determined_iff (encodable_runCalls hm) hrun hn⟩

def filled (len : ℕ) (v : UInt8) : Bytes := List.replicate len v

def addEmpty (rrType : UInt16) : List Call :=
  [.addRr 1 (some { zeroRr (none : Str) with rrType := rrType, rrClass := 1 })]

theorem address_determined : ∃ m n t, runCalls (zeroMsg 0) (addEmpty 1) = some ([0], m) ∧
    dnsMsgEncode m (filled 300 0) = .ok n t ∧ n = 27 ∧ Determined m (filled 300 0).length n t := by
  have hrun : (runCalls (zeroMsg 0) (addEmpty 1)).map (fun p => (p.1,
      (allRecords p.2).map (fun rr => rrKind rr.rrType),
      (dnsMsgEncode p.2 (filled 300 0)).result.map Prod.fst)) =
      some ([0], [.a], some 27) := by decide +kernel
  obtain ⟨⟨rcs, m⟩, hp, hf⟩ := Option.map_eq_some_iff.mp hrun
  simp only [Prod.mk.injEq] at hf
  obtain ⟨rfl, hkinds, hres⟩ := hf
  obtain ⟨n, t, henc, rfl⟩ := Outcome.eq_ok hres
  refine ⟨m, _, t, hp, henc, rfl, ((stale_bytes_iff hp).2 _ _ _ henc (by decide)).mpr ?_⟩
  intro rr hrr
  have hk := List.mem_map_of_mem (f := fun rr : DnsRr Ptr => rrKind rr.rrType) hrr
  rw [hkinds, List.mem_singleton] at hk
  exact ⟨by rw [hk]; decide, fun h => by rw [hk] at h; cases h⟩

/-- The two bytes behind the preference of an `MX` record are those of the buffer. -/
theorem mx_leaks : ∃ m n t u, runCalls (zeroMsg 0) (addEmpty 15) = some ([0], m) ∧
    dnsMsgEncode m (filled 300 0) = .ok n t ∧ dnsMsgEncode m (filled 300 255) = .ok n u ∧ 0 ≤ n ∧
    t.pktBuf.take n.toNat ≠ u.pktBuf.take n.toNat := by
  have hrun : (runCalls (zeroMsg 0) (addEmpty 15)).map (fun p => (p.1,
      (dnsMsgEncode p.2 (filled 300 0)).result.map (fun q => (q.1, slice q.2.pktBuf 23 5)),
      (dnsMsgEncode p.2 (filled 300 255)).result.map (fun q => (q.1, slice q.2.pktBuf 23 5)))) =
      some ([0], some (28, [0, 0, 0, 0, 0]), some (28, [0, 0, 255, 255, 0])) := by decide +kernel
  obtain ⟨⟨rcs, m⟩, hp, hf⟩ := Option.map_eq_some_iff.mp hrun
  simp only [Prod.mk.injEq] at hf
  obtain ⟨rfl, h1, h2⟩ := hf
  obtain ⟨n, t, ht, ht'⟩ := Outcome.eq_ok h1
  obtain ⟨n', u, hu, hu'⟩ := Outcome.eq_ok h2
  simp only [Prod.mk.injEq] at ht' hu'
  obtain ⟨rfl, ht'⟩ := ht'
  obtain ⟨rfl, hu'⟩ := hu'
  refine ⟨m, 28, t, u, hp, ht, hu, by decide, fun heq => ?_⟩
  have hslice := slice_of_take (i := 23) (k := 5) heq (by decide)
  rw [ht', hu'] at hslice
  revert hslice
  decide

end DnsPkt.StaleBytes
