import DnsPkt.NameDecoder

/-!
# The checks against the packet end

What a decoder sees of the bytes behind a point of the packet is told by the
checks it makes against the packet end. Here these checks are listed along a
walk over a name. On two packets that begin alike, and on which every check
comes out alike, the walk is the same.
-/

set_option autoImplicit false

namespace DnsPkt.EndChecks
open DnsPkt.Octets DnsPkt.WireName DnsPkt.Protocol DnsPkt.NameDecoder

/-- A question whether the packet has `k` bytes, a use of its first `k` bytes
without the question, and a question whether it has `k` bytes whose answer
tells the length. -/
inductive EndCheck where
  | ask (k : ℕ)
  | take (k : ℕ)
  | size (k : ℕ)
  deriving DecidableEq, Repr

/-- The check tells nothing apart on packets `a` and `b` that both begin with `p`. -/
def Alike (p a b : Bytes) : EndCheck → Prop
  | .ask k => k ≤ p.length ∨ a.length < k ∧ b.length < k
  | .take k => k ≤ p.length
  | .size k => a.length < k ∧ b.length < k ∨ a.length = b.length

instance (p a b : Bytes) : DecidablePred (Alike p a b)
  | .ask k => inferInstanceAs (Decidable (k ≤ p.length ∨ a.length < k ∧ b.length < k))
  | .take k => inferInstanceAs (Decidable (k ≤ p.length))
  | .size k => inferInstanceAs (Decidable (a.length < k ∧ b.length < k ∨ a.length = b.length))

def nameStepChecks (pkt : Bytes) (s : NameScan) : List EndCheck :=
  .ask (s.idx+1) :: match pkt[s.idx]? with
    | none => []
    | some len =>
      if 192 ≤ len.toNat then
        .ask (s.idx+2) :: match pkt[s.idx+1]? with
          | none => []
          | some lo =>
            if s.njmp ≤ dnsMaxJmp ∧ 12 ≤ target len lo then [.ask (target len lo)] else []
      else
        .ask (s.idx+1+len.toNat) ::
          if 0 < len.toNat ∧ len.toNat < s.outLen then [.ask (s.idx+2+len.toNat)] else []

def nameLoopChecks (pkt : Bytes) : ℕ → NameScan → List EndCheck
  | 0, _ => []
  | k+1, s => nameStepChecks pkt s ++ match nameStep pkt s with
    | .ok (.inl t) => nameLoopChecks pkt k t
    | _ => []

def nameChecks (pkt : Bytes) (offset nlen : ℕ) : List EndCheck :=
  nameLoopChecks pkt ((dnsMaxJmp+3)*(pkt.length+1)) ⟨offset, offset, nlen, 0, []⟩

theorem nameLoop_more {pkt : Bytes} {k : ℕ} {s : NameScan} {r : NameOut}
    (h : nameLoop pkt k s = .ok r) (j : ℕ) : nameLoop pkt (k+j) s = .ok r ∧
      nameLoopChecks pkt (k+j) s = nameLoopChecks pkt k s := by
  induction k generalizing s with
  | zero => cases h
  | succ k ih =>
    rw [nameLoop] at h
    rw [Nat.succ_add, nameLoop, nameLoopChecks, nameLoopChecks]
    generalize nameStep pkt s = o at h
    cases o with
    | error f => cases h
    | ok o =>
      cases o with
      | inl t =>
        obtain ⟨hrun, hchecks⟩ := ih h
        exact ⟨hrun, congrArg _ hchecks⟩
      | inr r' => exact ⟨h, rfl⟩

structure Begin (p a b : Bytes) : Prop where
  left : p <+: a
  right : p <+: b

section Pair

variable {p a b : Bytes} (hab : Begin p a b)
include hab

theorem Begin.get {i : ℕ} {x : UInt8} (h : a[i]? = some x) (hi : i+1 ≤ p.length) :
    b[i]? = some x := by
  apply get_extend hab.right
  obtain ⟨c, rfl⟩ := hab.left
  rw [← h, List.getElem?_append_left (by omega)]

theorem Begin.slice {i n : ℕ} (h : i+n ≤ p.length) : slice a i n = slice b i n := by
  rw [slice_extend hab.left i n h, slice_extend hab.right i n h]

theorem ask_iff {k : ℕ} (h : Alike p a b (.ask k)) : k ≤ a.length ↔ k ≤ b.length := by
  have hla := hab.left.length_le
  have hlb := hab.right.length_le
  rcases h with h | h
  · exact iff_of_true (by omega) (by omega)
  · exact iff_of_false (by omega) (by omega)

omit hab in
theorem ask_inside {k : ℕ} (h : Alike p a b (.ask k)) (hk : k ≤ a.length) : k ≤ p.length := by
  rcases h with h | h
  · exact h
  · omega

theorem pointerStep_alike {s : NameScan} {hi : UInt8} (hlen : a[s.idx]? = some hi)
    (hptr : 192 ≤ hi.toNat) (h : ∀ c ∈ nameStepChecks a s, Alike p a b c) :
    pointerStep a s hi = pointerStep b s hi := by
  have hfirst := ask_iff hab (h _ (List.mem_cons_self ..))
  simp only [nameStepChecks, hlen, if_pos hptr] at h
  have hnext : Alike p a b (.ask (s.idx+2)) := h _ (by simp)
  have hend := ask_iff hab hnext
  rw [pointerStep, pointerStep]
  by_cases hlast : s.idx+1 = a.length
  · rw [if_pos hlast, if_pos (by omega)]
  have hidx := get_lt hlen
  rw [if_neg hlast, if_neg (show ¬ s.idx+1 = b.length by omega)]
  by_cases hj : dnsMaxJmp < s.njmp
  · rw [if_pos hj, if_pos hj]
  obtain ⟨lo, hlo, hread⟩ := pktByte_of_lt a (s.idx+1) (by omega)
  have hreadb := pktByte_of_get (hab.get hlo (ask_inside hnext (by omega)))
  simp only [hlo] at h
  simp only [if_neg hj, hread, hreadb, bind, Except.bind]
  by_cases h12 : target hi lo < 12
  · rw [if_pos h12, if_pos h12]
  have htarget := ask_iff hab (h (.ask (target hi lo)) (by
    rw [if_pos ⟨Nat.le_of_not_lt hj, Nat.le_of_not_lt h12⟩]
    simp))
  rw [if_neg h12, if_neg h12]
  by_cases hout : a.length < target hi lo
  · rw [if_pos hout, if_pos (show b.length < target hi lo by omega)]
  · rw [if_neg hout, if_neg (show ¬ b.length < target hi lo by omega)]

theorem labelStep_alike {s : NameScan} {len : UInt8} (hlen : a[s.idx]? = some len)
    (hnp : ¬ 192 ≤ len.toNat) (h : ∀ c ∈ nameStepChecks a s, Alike p a b c) :
    labelStep a s len = labelStep b s len := by
  simp only [nameStepChecks, hlen, if_neg hnp] at h
  have hlabel : Alike p a b (.ask (s.idx+1+len.toNat)) := h _ (by simp)
  have hend := ask_iff hab hlabel
  have hidx := get_lt hlen
  rw [labelStep, labelStep]
  by_cases hfit : a.length-(s.idx+1) < len.toNat
  · rw [if_pos hfit, if_pos (by omega)]
  rw [if_neg hfit, if_neg (show ¬ b.length-(s.idx+1) < len.toNat by omega)]
  by_cases hroom : s.outLen < len.toNat
  · rw [if_pos hroom, if_pos hroom]
  rw [if_neg hroom, if_neg hroom]
  by_cases h0 : len = 0
  · rw [if_pos h0, if_pos h0]
  have hpos : 0 < len.toNat :=
    Nat.pos_of_ne_zero fun hz => h0 (UInt8.toNat_inj.mp (by rw [hz, UInt8.toNat_zero]))
  have hlab : s.idx+1+len.toNat ≤ p.length := ask_inside hlabel (by omega)
  have hsa := @pktSlice_of_le a _ _ (show s.idx+1+len.toNat ≤ a.length by omega)
  have hsb := @pktSlice_of_le b _ _ (show s.idx+1+len.toNat ≤ b.length by omega)
  simp only [if_neg h0, hsa, hsb, hab.slice hlab, bind, Except.bind]
  by_cases hz : s.outLen-len.toNat = 0
  · rw [if_pos hz, if_pos hz]
  rw [if_neg hz, if_neg hz]
  have hsep : Alike p a b (.ask (s.idx+2+len.toNat)) := h _ (by
    rw [if_pos ⟨hpos, by omega⟩]
    simp)
  have hend2 := ask_iff hab hsep
  by_cases hnext : s.idx+1+len.toNat < a.length
  · obtain ⟨next, hn, hread⟩ := pktByte_of_lt a (s.idx+1+len.toNat) hnext
    have hin := ask_inside hsep (by omega)
    have hreadb := pktByte_of_get (hab.get hn (by omega))
    simp only [if_pos hnext, if_pos (show s.idx+1+len.toNat < b.length by omega), hread, hreadb]
  · simp only [if_neg hnext, if_neg (show ¬ s.idx+1+len.toNat < b.length by omega)]

theorem nameStep_alike {s : NameScan} (h : ∀ c ∈ nameStepChecks a s, Alike p a b c) :
    nameStep a s = nameStep b s := by
  have hfirst : Alike p a b (.ask (s.idx+1)) := h _ (List.mem_cons_self ..)
  have hend := ask_iff hab hfirst
  by_cases hidx : a.length ≤ s.idx
  · rw [nameStep_end hidx, nameStep_end (by omega)]
  obtain ⟨len, hlen, -⟩ := pktByte_of_lt a s.idx (by omega)
  rw [nameStep_byte hlen, nameStep_byte (hab.get hlen (ask_inside hfirst (by omega)))]
  by_cases hptr : 192 ≤ len.toNat
  · rw [if_pos hptr, if_pos hptr, pointerStep_alike hab hlen hptr h]
  · rw [if_neg hptr, if_neg hptr, labelStep_alike hab hlen hptr h]

theorem nameLoop_alike {k : ℕ} {s : NameScan}
    (h : ∀ c ∈ nameLoopChecks a k s, Alike p a b c) : nameLoop a k s = nameLoop b k s := by
  induction k generalizing s with
  | zero => rfl
  | succ k ih =>
    rw [nameLoopChecks, List.forall_mem_append] at h
    obtain ⟨hstep, hrest⟩ := h
    rw [nameLoop, nameLoop, ← nameStep_alike hab hstep]
    generalize nameStep a s = o at hrest
    cases o with
    | error f => rfl
    | ok o =>
      cases o with
      | inl t => exact ih hrest
      | inr r => rfl

theorem decodeName_alike {off nlen : ℕ} (h : ∀ c ∈ nameChecks a off nlen, Alike p a b c) :
    decodeName a off nlen = decodeName b off nlen := by
  obtain ⟨r, hr, -⟩ := decodeName_total a off nlen
  obtain ⟨r', hr', -⟩ := decodeName_total b off nlen
  obtain ⟨hrun, hchecks⟩ := nameLoop_more hr ((dnsMaxJmp+3)*(b.length+1))
  obtain ⟨hrun', -⟩ := nameLoop_more hr' ((dnsMaxJmp+3)*(a.length+1))
  rw [nameChecks, ← hchecks] at h
  rw [hr, hr', ← hrun, ← hrun', nameLoop_alike hab h, Nat.add_comm]

end Pair

end DnsPkt.EndChecks
