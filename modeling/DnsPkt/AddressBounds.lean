import DnsPkt.QuadText

/-!
# Accesses of the address decoders

The decoders of `str_util.c` again, with their text and their destination as
the only memory there is. An access outside of them has no result. Pointers are
positions relative to the start of the text and may lie before it.
-/

set_option autoImplicit false

namespace DnsPkt.AddressBounds
open DnsPkt.Octets DnsPkt.StepMachine DnsPkt.AddressText DnsPkt.AddressRoundTrip DnsPkt.QuadText

def readAt (b : Bytes) (p n : ℤ) : Option Bytes :=
  if 0 ≤ p ∧ 0 ≤ n ∧ p+n ≤ b.length then some (slice b p.toNat n.toNat) else none

def writeAt (b : Bytes) (p : ℤ) (w : Bytes) : Option Bytes :=
  if 0 ≤ p ∧ p+w.length ≤ b.length then some (patch b p.toNat w) else none

def fillAt (b : Bytes) (p n : ℤ) (v : UInt8) : Option Bytes :=
  if 0 ≤ n then writeAt b p (List.replicate n.toNat v) else none

def byteAt (b : Bytes) (p : ℤ) : Option UInt8 :=
  if 0 ≤ p ∧ p < b.length then some (b.getD p.toNat 0) else none

structure Ip4Run where
  strPtr : ℤ
  strEnd : ℤ
  dst : Bytes
  dstPtr : ℤ
  numDigit : ℕ
  numDot : ℕ
  acc : ℕ

def ip4StepAt (str : Bytes) (start : ℤ) (s : Ip4Run) : Turn Ip4Run (Option (ℕ × Bytes)) :=
  if s.strPtr < s.strEnd then
    match byteAt str s.strPtr with
    | none => .done none
    | some ch =>
      let s := { s with strPtr := s.strPtr+1 }
      if isNumeral ch then
        let numDigit := s.numDigit+1
        if 3 < numDigit then .done (some (sizeMax, s.dst)) else
        let acc := s.acc*10+(ch.toNat-48)
        if 255 < acc then .done (some (0, s.dst)) else
        .next { s with numDigit := numDigit, acc := acc }
      else if ch = 46 then
        if s.numDigit = 0 ∨ 3 ≤ s.numDot then .done (some (0, s.dst)) else
        match writeAt s.dst s.dstPtr [UInt8.ofNat s.acc] with
        | none => .done none
        | some dst => .next { s with dst := dst, dstPtr := s.dstPtr+1, numDot := s.numDot+1,
                                     acc := 0, numDigit := 0 }
      else .next { s with strEnd := start }
  else if s.numDot ≠ 3 ∨ s.numDigit = 0 then .done (some (0, s.dst))
  else .done ((writeAt s.dst s.dstPtr [UInt8.ofNat s.acc]).map fun dst =>
    ((s.strPtr-start).toNat, dst))

/-- `ip4_str_decode` for `len` bytes at `start`, with the octets at `dstPtr`. -/
def ip4StrDecodeAt (str : Bytes) (start len : ℤ) (dst : Bytes) (dstPtr : ℤ) :
    Option (ℕ × Bytes) :=
  run (ip4StepAt str start) none (str.length+1) ⟨start, start+len, dst, dstPtr, 0, 0, 0⟩

structure Ip6Run where
  strPtr : ℤ
  strEnd : ℤ
  segPtr : ℤ
  dst : Bytes
  dstPtr : ℤ
  zeroPtr : Option ℤ
  numHex : ℕ
  numSeg : ℕ
  acc : ℕ

def Ip6Run.store (s : Ip6Run) : Option Ip6Run :=
  (writeAt s.dst s.dstPtr (encU16 (UInt16.ofNat s.acc))).map fun dst =>
    { s with dst := dst, dstPtr := s.dstPtr+2 }

def zeroFillAt (dst : Bytes) (zeroPtr dstPtr : ℤ) : Option Bytes := do
  let zeroMove := dstPtr-zeroPtr
  let zeroSize := 16-dstPtr
  let moved ← writeAt dst (16-zeroMove) (← readAt dst zeroPtr zeroMove)
  fillAt moved zeroPtr zeroSize 0

def Ip6Run.close (s : Ip6Run) : Option (ℕ × Bytes) :=
  match s.zeroPtr with
  | some z => (zeroFillAt s.dst z s.dstPtr).map fun dst => (s.strPtr.toNat, dst)
  | none => some (if s.numSeg ≠ 8 then 0 else s.strPtr.toNat, s.dst)

def Ip6Run.finish (s : Ip6Run) : Option (ℕ × Bytes) :=
  if s.numHex ≠ 0 then s.store.bind fun s => { s with numSeg := s.numSeg+1 }.close else s.close

def Ip6Run.nextSegment (s : Ip6Run) : Ip6Run :=
  { s with numHex := 0, acc := 0, segPtr := s.strPtr+1, numSeg := s.numSeg+1 }

def Ip6Run.gap (str : Bytes) (s : Ip6Run) : Turn Ip6Run (Option (ℕ × Bytes)) :=
  if s.strPtr < s.strEnd then
    match byteAt str s.strPtr with
    | none => .done none
    | some ch =>
      if ch = 58 then
        if s.zeroPtr ≠ none then .done (some (0, s.dst))
        else .next { s with zeroPtr := some s.dstPtr, strPtr := s.strPtr+1 }.nextSegment
      else .next s.nextSegment
  else .next s.nextSegment

def Ip6Run.colon (str : Bytes) (s : Ip6Run) : Turn Ip6Run (Option (ℕ × Bytes)) :=
  if s.numHex ≠ 0 then
    if 7 ≤ s.numSeg then .done (some (0, s.dst)) else
    match s.store with
    | none => .done none
    | some s => s.gap str
  else s.gap str

/-- A pointer that a `size_t` is added to: the offset −1 leads back. -/
def advance (p : ℤ) (n : ℕ) : ℤ := if n = sizeMax then p-1 else p+n

def Ip6Run.dot (str : Bytes) (s : Ip6Run) : Turn Ip6Run (Option (ℕ × Bytes)) :=
  if 6 < s.numSeg then .done (some (0, s.dst)) else
  match ip4StrDecodeAt str s.segPtr (s.strEnd-s.segPtr) s.dst s.dstPtr with
  | none => .done none
  | some (n, dst) =>
    let strPtr := advance s.segPtr n
    if strPtr = s.segPtr then .done (some (0, dst)) else
    .next { s with numHex := 0, strPtr := strPtr, dst := dst, dstPtr := s.dstPtr+4,
                   numSeg := s.numSeg+2, strEnd := 0 }

def ip6StepAt (str : Bytes) (s : Ip6Run) : Turn Ip6Run (Option (ℕ × Bytes)) :=
  if s.strPtr < s.strEnd then
    match byteAt str s.strPtr with
    | none => .done none
    | some ch =>
      let s := { s with strPtr := s.strPtr+1 }
      if isHex ch then
        if 4 < s.numHex+1 then .done (some (0, s.dst)) else
        .next { s with numHex := s.numHex+1, acc := s.acc*16 ||| hexToNibble ch }
      else if ch = 58 then s.colon str
      else if ch = 46 then s.dot str
      else .next { s with strEnd := 0 }
  else .done s.finish

def ip6StrDecodeAt (str dst : Bytes) : Option (ℕ × Bytes) :=
  run (ip6StepAt str) none (str.length+1) ⟨0, str.length, 0, dst, 0, none, 0, 0, 0⟩

theorem byteAt_nat {b : Bytes} {p : ℕ} (h : p < b.length) : byteAt b p = some (b.getD p 0) := by
  rw [byteAt, if_pos ⟨by omega, by omega⟩, Int.toNat_natCast]

theorem byteAt_slice {b : Bytes} {start len p : ℕ} (h : start+len ≤ b.length) (hp : p < len) :
    byteAt b ((start : ℤ)+p) = some ((slice b start len).getD p 0) := by
  rw [← Nat.cast_add, byteAt_nat (by omega)]
  simp [slice, List.getD, hp]

theorem writeAt_nat {b w : Bytes} {p : ℕ} (h : p+w.length ≤ b.length) :
    writeAt b p w = some (patch b p w) := by
  rw [writeAt, if_pos ⟨by omega, by omega⟩, Int.toNat_natCast]

theorem patch_behind (a b w : Bytes) (p : ℕ) :
    patch (a ++ b) (a.length+p) w = a ++ patch b p w := by
  simp only [patch, List.append_assoc, Nat.add_assoc, List.take_length_add_append,
    List.drop_length_add_append]

theorem writeAt_behind {a b w : Bytes} {p : ℕ} (h : p+w.length ≤ b.length) :
    writeAt (a ++ b) ((a.length : ℤ)+p) w = some (a ++ patch b p w) := by
  rw [← Nat.cast_add, writeAt_nat (by rw [List.length_append]; omega), patch_behind]

section Quad

variable {str dst : Bytes} {start len size d : ℕ}

def liftQuad (start : ℕ) (front : Bytes) (s : Ip4Scan) : Ip4Run :=
  ⟨(start : ℤ)+s.strPtr, (start : ℤ)+s.strEnd, front ++ s.dst, (front.length : ℤ)+s.dstPtr,
    s.numDigit, s.numDot, s.acc⟩

/-- The text ends in time, and there is room for the octets that are missing. -/
def QuadInv (len size : ℕ) (s : Ip4Scan) : Prop :=
  s.strEnd ≤ len ∧ s.dst.length = size ∧ s.dstPtr = s.numDot ∧ s.numDot ≤ 3

theorem ip4StepAt_lift {front : Bytes} (h : start+len ≤ str.length) (h4 : 4 ≤ size)
    (s : Ip4Scan) (hs : QuadInv len size s) : ip4StepAt str start (liftQuad start front s) =
      (ip4Step (slice str start len) s).map (liftQuad start front)
        (fun r => some (r.1, front ++ r.2)) := by
  obtain ⟨hend, hdst, hptr, hdot⟩ := hs
  by_cases hlt : s.strPtr < s.strEnd
  · have hread := byteAt_slice h (show s.strPtr < len by omega)
    have hlt' : (start : ℤ)+s.strPtr < (start : ℤ)+s.strEnd := by omega
    simp only [ip4Step, if_pos hlt, ip4StepAt, liftQuad, if_pos hlt', hread]
    set ch := (slice str start len).getD s.strPtr 0
    by_cases hn : isNumeral ch = true
    · by_cases hd : 3 < s.numDigit+1
      · simp only [hn, hd, ↓reduceIte, Turn.map]
      · by_cases hv : 255 < s.acc*10+(ch.toNat-48)
        · simp only [hn, hd, hv, ↓reduceIte, Turn.map]
        · simp only [hn, hd, hv, ↓reduceIte, Turn.map, liftQuad, Nat.cast_add, Nat.cast_one,
            Int.add_assoc]
    simp only [hn, Bool.false_eq_true, ↓reduceIte]
    by_cases hch : ch = 46
    · by_cases hbad : s.numDigit = 0 ∨ 3 ≤ s.numDot
      · simp only [hch, hbad, ↓reduceIte, Turn.map]
      · simp only [hch, hbad, ↓reduceIte, Turn.map]
        rw [writeAt_behind (by rw [List.length_singleton]; omega)]
        simp only [liftQuad, Nat.cast_add, Nat.cast_one, Int.add_assoc]
    · simp only [hch, ↓reduceIte, Turn.map, liftQuad, Nat.cast_add, Nat.cast_one,
        Nat.cast_zero, Int.add_assoc, Int.add_zero]
  · have hlt' : ¬ (start : ℤ)+s.strPtr < (start : ℤ)+s.strEnd := by omega
    simp only [ip4Step, hlt, Ip4Scan.finish, ip4StepAt, liftQuad, hlt', ↓reduceIte, Turn.map]
    by_cases hbad : s.numDot ≠ 3 ∨ s.numDigit = 0
    · simp only [hbad, ↓reduceIte]
    · simp only [hbad, ↓reduceIte]
      rw [writeAt_behind (by rw [List.length_singleton]; omega), Option.map_some,
        add_sub_cancel_left, Int.toNat_natCast]

theorem quadInv_next {t' : Bytes} (h4 : 4 ≤ size) (s t : Ip4Scan) (hs : QuadInv len size s)
    (h : ip4Step t' s = .next t) : QuadInv len size t := by
  obtain ⟨hend, hdst, hptr, hdot⟩ := hs
  simp only [ip4Step] at h
  split_ifs at h with hlt hn hd hv hch hbad <;> cases h
  · exact ⟨hend, hdst, hptr, hdot⟩
  · refine ⟨hend, ?_, by simp only []; omega, by simp only []; omega⟩
    rw [length_patch _ _ _ (by rw [List.length_singleton]; omega)]
    exact hdst
  · exact ⟨Nat.zero_le _, hdst, hptr, hdot⟩

/-- With its text inside of the string and room for four octets, the decoder
reaches no other byte. -/
theorem ip4StrDecodeAt_eq (h : start+len ≤ str.length) (hd : d+4 ≤ dst.length) :
    ip4StrDecodeAt str start len dst d =
      some ((ip4StrDecode (slice str start len) (dst.drop d)).1,
        dst.take d ++ (ip4StrDecode (slice str start len) (dst.drop d)).2) := by
  have hlen := length_slice _ _ _ h
  have hinv : QuadInv len (dst.length-d) ⟨0, len, dst.drop d, 0, 0, 0, 0⟩ :=
    ⟨le_rfl, List.length_drop, rfl, by simp only []; omega⟩
  have hrun : run (ip4StepAt str start) none (str.length+1)
      (liftQuad start (dst.take d) ⟨0, len, dst.drop d, 0, 0, 0, 0⟩) = _ :=
    run_lift (ip4_counts (slice str start len)) (quadInv_next (by omega))
      (@ip4StepAt_lift str start len (dst.length-d) (dst.take d) h (by omega)) hinv
      (by simp only []; omega) (o := (0, dst.drop d))
  have hfront : (dst.take d).length = d := by rw [List.length_take]; omega
  simp only [liftQuad, hfront, List.take_append_drop, Nat.cast_zero, Int.add_zero] at hrun
  rw [ip4StrDecodeAt, hrun, ip4StrDecode, hlen, run_enough (ip4_counts (slice str start len))
    (show _ < len+1 by simp only []; omega) (show _ < str.length+1 by simp only []; omega)]

end Quad

/-- Texts that lead the decoder to the byte before them. -/
def LeavesText (str : Bytes) : Prop :=
  (∃ ds rest, str = ds ++ 46 :: rest ∧ ds.length ≤ 4 ∧ ∀ ch ∈ ds, isHex ch = true) ∧
    ∃ os, Overlong str os

section Groups

variable {str : Bytes}

def liftRun (s : Ip6Scan) : Ip6Run :=
  ⟨s.strPtr, s.strEnd, s.segPtr, s.dst, s.dstPtr, s.zeroPtr.map Nat.cast, s.numHex, s.numSeg, s.acc⟩

/-- Room for what is still stored and, while the scan goes on, a segment that
begins before its next dot. -/
structure RunInv (str : Bytes) (s : Ip6Scan) : Prop where
  size : s.dst.length = 16
  room : s.dstPtr ≤ 14 ∨ (s.numHex = 0 ∧ s.dstPtr ≤ 16)
  gap : ∀ z ∈ s.zeroPtr, z ≤ s.dstPtr
  ends : s.strEnd ≠ 0 → s.strEnd = str.length
  seg : s.strEnd ≠ 0 → s.segPtr ≤ s.strPtr+1
  count : s.strEnd ≠ 0 → s.dstPtr ≤ 14 ∧ s.dstPtr ≤ 2*s.numSeg
  first : s.strEnd ≠ 0 → s.segPtr = 0 → s.strPtr = s.numHex ∧ s.numHex ≤ 4 ∧
    ∀ ch ∈ str.take s.strPtr, isHex ch = true

theorem zeroFillAt_eq {dst : Bytes} {z d : ℕ} (hl : dst.length = 16) (hz : z ≤ d) (hd : d ≤ 16) :
    zeroFillAt dst z d = some (zeroFill dst z d) := by
  have hread : readAt dst z ((d : ℤ)-z) = some (slice dst z (d-z)) := by
    rw [readAt, if_pos ⟨by omega, by omega, by omega⟩, Int.toNat_natCast]
    congr 2
    omega
  have hs : (slice dst z (d-z)).length = d-z := length_slice _ _ _ (by omega)
  have hmove := writeAt_nat (b := dst) (w := slice dst z (d-z)) (p := 16-(d-z)) (by omega)
  have hfill := writeAt_nat (b := patch dst (16-(d-z)) (slice dst z (d-z)))
    (w := List.replicate (16-d) 0) (p := z)
    (by rw [length_patch _ _ _ (by omega), List.length_replicate]; omega)
  simp only [zeroFillAt, hread, Option.bind_eq_bind, Option.bind_some, zeroFill]
  rw [show (16 : ℤ)-((d : ℤ)-z) = ((16-(d-z) : ℕ) : ℤ) by omega, hmove, Option.bind_some, fillAt,
    if_pos (by omega), show ((16 : ℤ)-d).toNat = 16-d by omega, hfill]

variable {s : Ip6Scan}

theorem store_lift (hl : s.dst.length = 16) (hd : s.dstPtr ≤ 14) :
    (liftRun s).store = some (liftRun s.store) := by
  simp only [Ip6Run.store, liftRun]
  rw [writeAt_nat (by rw [length_encU16]; omega)]
  rfl

theorem gap_lift (he : s.strEnd ≤ str.length) :
    (liftRun s).gap str = (s.gap str).map liftRun some := by
  by_cases hlt : s.strPtr < s.strEnd
  · have hread := byteAt_nat (b := str) (p := s.strPtr) (by omega)
    simp only [Ip6Run.gap, liftRun, Nat.cast_lt, hlt, hread, ↓reduceIte, Ip6Scan.gap, true_and]
    by_cases hc : str.getD s.strPtr 0 = 58
    · simp only [hc, ↓reduceIte, Ne, Option.map_eq_none_iff]
      by_cases hz : s.zeroPtr = none
      · simp only [hz, not_true_eq_false, ↓reduceIte]
        rfl
      · simp only [hz, not_false_eq_true, ↓reduceIte]
        rfl
    · simp only [hc, ↓reduceIte]
      rfl
  · simp only [Ip6Run.gap, liftRun, Nat.cast_lt, hlt, ↓reduceIte, Ip6Scan.gap, false_and]
    rfl

theorem colon_lift (hl : s.dst.length = 16) (hd : s.dstPtr ≤ 14) (he : s.strEnd ≤ str.length) :
    (liftRun s).colon str = (s.colon str).map liftRun some := by
  have hgap : (liftRun s.store).gap str = (s.store.gap str).map liftRun some := gap_lift he
  rw [Ip6Run.colon, store_lift hl hd, Ip6Scan.colon]
  by_cases hh : s.numHex ≠ 0
  · rw [if_pos hh, if_pos (show (liftRun s).numHex ≠ 0 from hh)]
    by_cases hseg : 7 ≤ s.numSeg
    · rw [if_pos hseg, if_pos (show 7 ≤ (liftRun s).numSeg from hseg)]
      rfl
    · rw [if_neg hseg, if_neg (show ¬ 7 ≤ (liftRun s).numSeg from hseg)]
      exact hgap
  · rw [if_neg hh, if_neg (show ¬ (liftRun s).numHex ≠ 0 from hh)]
    exact gap_lift he

theorem close_lift (hl : s.dst.length = 16) (hd : s.dstPtr ≤ 16)
    (hz : ∀ z ∈ s.zeroPtr, z ≤ s.dstPtr) : (liftRun s).close = some (match s.zeroPtr with
      | some z => (s.strPtr, zeroFill s.dst z s.dstPtr)
      | none => if s.numSeg ≠ 8 then (0, s.dst) else (s.strPtr, s.dst)) := by
  cases h : s.zeroPtr with
  | none =>
    simp only [Ip6Run.close, liftRun, h, Option.map_none, Int.toNat_natCast]
    split_ifs <;> rfl
  | some z =>
    simp only [Ip6Run.close, liftRun, h, Option.map_some, zeroFillAt_eq hl (hz z h) hd,
      Int.toNat_natCast]

theorem finish_lift (hl : s.dst.length = 16)
    (hr : s.dstPtr ≤ 14 ∨ (s.numHex = 0 ∧ s.dstPtr ≤ 16))
    (hz : ∀ z ∈ s.zeroPtr, z ≤ s.dstPtr) : (liftRun s).finish = some s.finish := by
  rw [Ip6Run.finish, Ip6Scan.finish]
  by_cases hh : s.numHex ≠ 0
  · have hd : s.dstPtr ≤ 14 := by omega
    rw [if_pos hh, if_pos (show (liftRun s).numHex ≠ 0 from hh), store_lift hl hd]
    refine close_lift (s := { s.store with numSeg := s.numSeg+1 }) ?_ ?_ ?_
    · rw [Ip6Scan.store, length_patch _ _ _ (by rw [length_encU16]; omega)]
      exact hl
    · simp only [Ip6Scan.store]
      omega
    · intro z hmem
      have := hz z hmem
      simp only [Ip6Scan.store]
      omega
  · rw [if_neg hh, if_neg (show ¬ (liftRun s).numHex ≠ 0 from hh)]
    exact close_lift hl (by omega) hz

/-- The offset of a quad, which is −1 for one that is overlong. -/
theorem advance_quad {t m : Bytes} {p : ℕ} (hm : 4 ≤ m.length) (hp : p+t.length < 2^64)
    (hin : p = 0 → ¬ ∃ os, Overlong t os) :
    advance p (ip4StrDecode t m).1 = ((p+(ip4StrDecode t m).1) % 2^64 : ℕ) := by
  rcases ip4_cases t m hm with ⟨m', hz⟩ | ⟨os, hover⟩ | ⟨os, n, hq⟩
  · rw [hz, advance, if_neg (by simp [sizeMax]), Nat.mod_eq_of_lt (by simp only []; omega)]
    rfl
  · have hpos : p ≠ 0 := fun h => hin h ⟨os, hover⟩
    rw [ip4StrDecode_overlong hover hm, advance, if_pos rfl]
    simp only [sizeMax]
    omega
  · have hle := hq.le
    have hlen : n ≤ t.length := by
      obtain ⟨first, last, rest, -, -, -, rfl, rfl, -⟩ := hq
      simp only [List.length_append, List.length_take]
      omega
    rw [ip4StrDecode_front hq hm, advance, if_neg (by simp only [sizeMax]; omega),
      Nat.mod_eq_of_lt (by simp only []; omega), Nat.cast_add]

/-- The quad is decoded inside of the text, unless it sends the scan back before it. -/
theorem dot_lift (hl : s.dst.length = 16) (he : s.strEnd = str.length) (hlen : str.length < 2^64)
    (hs : s.segPtr ≤ str.length) (hd : s.numSeg ≤ 6 → s.dstPtr ≤ 12)
    (hin : s.segPtr = 0 → ¬ ∃ os, Overlong str os) :
    (liftRun s).dot str = (s.dot str).map liftRun some := by
  by_cases hseg : 6 < s.numSeg
  · rw [Ip6Run.dot, Ip6Scan.dot, if_pos hseg, if_pos (show 6 < (liftRun s).numSeg from hseg)]
    rfl
  have hdst : s.dstPtr+4 ≤ s.dst.length := by have := hd (by omega); omega
  have hend : (s.strEnd : ℤ)-s.segPtr = ((s.strEnd-s.segPtr : ℕ) : ℤ) := by omega
  have hcall := @ip4StrDecodeAt_eq str s.dst s.segPtr (s.strEnd-s.segPtr) s.dstPtr (by omega) hdst
  have hadv := advance_quad (t := slice str s.segPtr (s.strEnd-s.segPtr))
    (m := s.dst.drop s.dstPtr) (p := s.segPtr) (by rw [List.length_drop]; omega)
    (by rw [length_slice _ _ _ (by omega)]; omega) (fun h0 => by
      rw [h0, Nat.sub_zero, he, slice, List.drop_zero, List.take_length]
      exact hin h0)
  rw [Ip6Run.dot, Ip6Scan.dot, if_neg hseg, if_neg (show ¬ 6 < (liftRun s).numSeg from hseg)]
  simp only [liftRun, hend, hcall]
  generalize ip4StrDecode (slice str s.segPtr (s.strEnd-s.segPtr)) (s.dst.drop s.dstPtr) = r
    at hadv ⊢
  simp only [hadv, Nat.cast_inj]
  by_cases hz : (s.segPtr+r.1) % 2^64 = s.segPtr
  · simp only [hz, ↓reduceIte]
    rfl
  · simp only [hz, ↓reduceIte]
    rfl

theorem length_ip4StrDecode {t m : Bytes} (hm : 4 ≤ m.length) :
    (ip4StrDecode t m).2.length = m.length := by
  have hstart : QuadInv t.length m.length ⟨0, t.length, m, 0, 0, 0, 0⟩ :=
    ⟨le_rfl, rfl, rfl, by simp only []; omega⟩
  refine run_keeps (P := fun r : ℕ × Bytes => r.2.length = m.length) (quadInv_next hm) ?_ rfl hstart
  rintro s r ⟨-, hl, hptr, hdot⟩ h
  simp only [ip4Step, Ip4Scan.finish] at h
  split_ifs at h <;> cases h
  · exact hl
  · exact hl
  · exact hl
  · exact hl
  · rw [length_patch _ _ _ (by rw [List.length_singleton]; omega)]
    exact hl

theorem ip6_counts (str : Bytes) (s t : Ip6Scan) (h : ip6Step str s = .next t) :
    t.strEnd-t.strPtr < s.strEnd-s.strPtr := by
  simp only [ip6Step, Ip6Scan.colon, Ip6Scan.gap, Ip6Scan.dot] at h
  split_ifs at h <;> cases h <;> simp only [Ip6Scan.nextSegment, Ip6Scan.store] <;> omega

theorem gap_inv {t : Ip6Scan} (hsize : s.dst.length = 16)
    (hend : s.strEnd ≠ 0 → s.strEnd = str.length) (hd : s.dstPtr ≤ 14)
    (hc : s.dstPtr ≤ 2*(s.numSeg+1)) (hz : ∀ z ∈ s.zeroPtr, z ≤ s.dstPtr)
    (h : s.gap str = .next t) : RunInv str t := by
  simp only [Ip6Scan.gap] at h
  split_ifs at h <;> cases h
  · exact ⟨hsize, .inl hd, by simp [Ip6Scan.nextSegment], hend, fun _ =>
      by simp [Ip6Scan.nextSegment],
      fun _ => ⟨hd, hc⟩, fun _ h0 => by simp [Ip6Scan.nextSegment] at h0⟩
  · exact ⟨hsize, .inl hd, hz, hend, fun _ => by simp [Ip6Scan.nextSegment],
      fun _ => ⟨hd, hc⟩, fun _ h0 => by simp [Ip6Scan.nextSegment] at h0⟩

theorem colon_inv {t : Ip6Scan} (hsize : s.dst.length = 16)
    (hend : s.strEnd ≠ 0 → s.strEnd = str.length) (hd : s.dstPtr ≤ 14)
    (hc : s.dstPtr ≤ 2*s.numSeg) (hz : ∀ z ∈ s.zeroPtr, z ≤ s.dstPtr)
    (h : s.colon str = .next t) : RunInv str t := by
  rw [Ip6Scan.colon] at h
  split_ifs at h with hh hseg
  · refine gap_inv (s := s.store) ?_ hend (by simp only [Ip6Scan.store]; omega)
      (by simp only [Ip6Scan.store]; omega) ?_ h
    · rw [Ip6Scan.store, length_patch _ _ _ (by rw [length_encU16]; omega)]
      exact hsize
    · intro z hmem
      have := hz z hmem
      simp only [Ip6Scan.store]
      omega
  · exact gap_inv hsize hend hd (by omega) hz h

theorem dot_inv {t : Ip6Scan} (hsize : s.dst.length = 16) (hc : s.dstPtr ≤ 2*s.numSeg)
    (hz : ∀ z ∈ s.zeroPtr, z ≤ s.dstPtr) (h : s.dot str = .next t) : RunInv str t := by
  rw [Ip6Scan.dot] at h
  split_ifs at h with hseg
  have h4 : 4 ≤ (s.dst.drop s.dstPtr).length := by rw [List.length_drop]; omega
  have hquad := length_ip4StrDecode (t := slice str s.segPtr (s.strEnd-s.segPtr)) h4
  simp only [] at h
  split_ifs at h
  cases h
  refine ⟨?_, .inr ⟨rfl, by simp only []; omega⟩, ?_, fun h0 => absurd rfl h0, fun h0 =>
    absurd rfl h0,
    fun h0 => absurd rfl h0, fun h0 => absurd rfl h0⟩
  · simp only []
    rw [List.length_append, hquad, List.length_take, List.length_drop]
    omega
  · intro z hmem
    have := hz z hmem
    simp only []
    omega

theorem runInv_next (s t : Ip6Scan) (hs : RunInv str s) (h : ip6Step str s = .next t) :
    RunInv str t := by
  by_cases hlt : s.strPtr < s.strEnd
  · obtain ⟨hsize, hroom, hz, hend, hseg, hcount, hfirst⟩ := hs
    have h0 : s.strEnd ≠ 0 := by omega
    obtain ⟨hd, hc⟩ := hcount h0
    have hread : str.take (s.strPtr+1) = str.take s.strPtr ++ [str.getD s.strPtr 0] := by
      have hp : s.strPtr < str.length := by have := hend h0; omega
      rw [List.take_succ_eq_append_getElem hp]
      simp [List.getD, hp]
    simp only [ip6Step, hlt, ↓reduceIte] at h
    split_ifs at h with hx hfour hcolon hdot
    · cases h
      refine ⟨hsize, .inl hd, hz, hend, fun _ => ?_, fun _ => ⟨hd, hc⟩, fun _ hseg0 => ?_⟩
      · have := hseg h0
        simp only []
        omega
      · obtain ⟨h1, h2, h3⟩ := hfirst h0 hseg0
        refine ⟨by simp only []; omega, by simp only []; omega, fun ch hch => ?_⟩
        rw [hread] at hch
        rcases List.mem_append.mp hch with hch | hch
        · exact h3 ch hch
        · rwa [List.mem_singleton.mp hch]
    · exact colon_inv (s := { s with strPtr := s.strPtr+1 }) hsize hend hd hc hz h
    · exact dot_inv (s := { s with strPtr := s.strPtr+1 }) hsize hc hz h
    · cases h
      exact ⟨hsize, .inl hd, hz, fun h0 => absurd rfl h0, fun h0 => absurd rfl h0,
        fun h0 => absurd rfl h0, fun h0 => absurd rfl h0⟩
  · simp only [ip6Step, hlt, ↓reduceIte, reduceCtorEq] at h

theorem ip6StepAt_lift (hlen : str.length < 2^64) (hin : ¬ LeavesText str) (s : Ip6Scan)
    (hs : RunInv str s) : ip6StepAt str (liftRun s) = (ip6Step str s).map liftRun some := by
  obtain ⟨hsize, hroom, hz, hend, hseg, hcount, hfirst⟩ := hs
  by_cases hlt : s.strPtr < s.strEnd
  · have h0 : s.strEnd ≠ 0 := by omega
    obtain ⟨hd, hc⟩ := hcount h0
    have he := hend h0
    have hread := byteAt_nat (b := str) (p := s.strPtr) (by omega)
    simp only [ip6StepAt, ip6Step, liftRun, Nat.cast_lt, hlt, hread, ↓reduceIte]
    set ch := str.getD s.strPtr 0 with hch
    by_cases hx : isHex ch = true
    · by_cases hfour : 4 < s.numHex+1
      · simp only [hx, hfour, ↓reduceIte, Turn.map]
      · simp only [hx, hfour, ↓reduceIte, Turn.map, liftRun, Nat.cast_add, Nat.cast_one]
    simp only [hx, Bool.false_eq_true, ↓reduceIte]
    by_cases hcolon : ch = 58
    · simp only [hcolon, ↓reduceIte]
      exact colon_lift (s := { s with strPtr := s.strPtr+1 }) hsize hd (by simp only []; omega)
    simp only [hcolon, ↓reduceIte]
    by_cases hdot : ch = 46
    · simp only [hdot, ↓reduceIte]
      have hsegLe := hseg h0
      refine dot_lift (s := { s with strPtr := s.strPtr+1 }) hsize he hlen (by simp only []; omega)
        (by simp only []; omega) (fun hseg0 hover => hin ⟨?_, hover⟩)
      obtain ⟨h1, h2, h3⟩ := hfirst h0 hseg0
      have hp : s.strPtr < str.length := by omega
      refine ⟨str.take s.strPtr, str.drop (s.strPtr+1), ?_, ?_, h3⟩
      · have hget : str.getD s.strPtr 0 = str[s.strPtr] := by simp [List.getD, hp]
        rw [← hdot, hch, hget, List.getElem_cons_drop, List.take_append_drop]
      · rw [List.length_take]
        omega
    · simp only [hdot, ↓reduceIte]
      rfl
  · have hfin := finish_lift hsize hroom hz
    simp only [ip6StepAt, ip6Step, hlt, ↓reduceIte, Turn.map, ← hfin]
    rw [if_neg (by simp only [liftRun, Nat.cast_lt]; exact hlt)]

/-- Inside of its text the decoder does what the decoder without checks does. -/
theorem ip6StrDecodeAt_eq {dst : Bytes} (hd : dst.length = 16) (hlen : str.length < 2^64)
    (hin : ¬ LeavesText str) : ip6StrDecodeAt str dst = some (ip6StrDecode str dst) := by
  have hinv : RunInv str ⟨0, str.length, 0, dst, 0, none, 0, 0, 0⟩ :=
    ⟨hd, .inl (by simp), by simp, fun _ => rfl, fun _ => by simp, fun _ => by simp, fun _ _ =>
      by simp⟩
  exact run_lift (ip6_counts str) runInv_next (ip6StepAt_lift hlen hin) hinv
    (by simp only []; omega) (o := (0, dst))

theorem digits_at {m rest : Bytes} {q : ℤ} (ds : Bytes) {p n a : ℕ}
    (hs : str.drop p = ds ++ rest) (hx : ∀ ch ∈ ds, isHex ch = true) (hd : n+ds.length ≤ 4) :
    Leads (ip6StepAt str) none ds.length ⟨p, str.length, 0, m, q, none, n, 0, a⟩
      ⟨(p+ds.length : ℕ), str.length, 0, m, q, none, n+ds.length, 0, hexOf a ds⟩ := by
  induction ds generalizing p n a with
  | nil => exact fun k => rfl
  | cons ch ds ih =>
    rw [List.length_cons] at hd
    obtain ⟨hp, hch, htl⟩ := drop_reads hs
    have hread := byteAt_nat hp
    rw [hch] at hread
    have hstep : ip6StepAt str ⟨p, str.length, 0, m, q, none, n, 0, a⟩ =
        .next ⟨(p+1 : ℕ), str.length, 0, m, q, none, n+1, 0, a*16 ||| hexToNibble ch⟩ := by
      simp only [ip6StepAt, Nat.cast_lt, hp, hread, hx ch (by simp), ↓reduceIte,
        show ¬ 4 < n+1 by omega, Nat.cast_add, Nat.cast_one]
    have htail := ih (a := a*16 ||| hexToNibble ch) htl (fun c hc => hx c (by simp [hc]))
      (show n+1+ds.length ≤ 4 by omega)
    rw [show p+1+ds.length = p+(ch :: ds).length by rw [List.length_cons]; omega,
      show n+1+ds.length = n+(ch :: ds).length by rw [List.length_cons]; omega] at htail
    exact (leads_next hstep).trans htail

/-- A quad in the first segment that is overlong makes the scan read the byte before the text. -/
theorem ip6StrDecodeAt_leaves {dst : Bytes} (hd : dst.length = 16) (h : LeavesText str) :
    ip6StrDecodeAt str dst = none := by
  obtain ⟨⟨ds, rest, hs, hd4, hx⟩, os, hover⟩ := h
  have hs0 : str.drop 0 = ds ++ 46 :: rest := hs
  have hdigits := digits_at (m := dst) (q := 0) (n := 0) (a := 0) ds hs0 hx (by omega)
  obtain ⟨hp, hch, -⟩ := drop_reads (drop_skips hs0)
  rw [Nat.zero_add] at hp hch
  rw [Nat.zero_add] at hdigits
  have hread := byteAt_nat hp
  rw [hch] at hread
  have hcall := @ip4StrDecodeAt_eq str dst 0 str.length 0 (by omega) (by omega)
  rw [slice, List.drop_zero, List.take_length, List.drop_zero,
    ip4StrDecode_overlong hover (by omega)] at hcall
  have hstep : ∃ t, ip6StepAt str ⟨ds.length, str.length, 0, dst, 0, none, ds.length, 0,
      hexOf 0 ds⟩ = .next t ∧ t.strPtr = -1 ∧ t.strEnd = 0 := by
    simp only [ip6StepAt, Nat.cast_lt, hp, hread, ↓reduceIte, show isHex 46 = false from rfl,
      Bool.false_eq_true, show ¬ (46 : UInt8) = 58 by decide, Ip6Run.dot, Nat.cast_zero] at hcall ⊢
    simp only [show ¬ 6 < 0 by omega, Int.sub_zero, hcall, advance, ↓reduceIte]
    exact ⟨_, rfl, rfl, rfl⟩
  obtain ⟨t, ht, hback, hstop⟩ := hstep
  have hfault : ip6StepAt str t = .done none := by
    simp only [ip6StepAt, hback, hstop, byteAt]
    rfl
  refine (hdigits.trans (leads_next ht)).ends (ends_done hfault) (str.length+1) ?_
  omega

/-- Every access of both decoders is inside of the text and of the destination. -/
def Bounded (str : Bytes) : Prop :=
  (∀ dst : Ip6Addr, (ip6StrDecodeAt str dst.toList).isSome = true) ∧
    ∀ dst : Ip4Addr, (ip4StrDecodeAt str 0 str.length dst.toList 0).isSome = true

theorem bounded_iff (str : Bytes) (hlen : str.length < 2^64) : Bounded str ↔ ¬ LeavesText str := by
  constructor
  · rintro ⟨h6, -⟩ hleaves
    have := h6 (Vector.replicate 16 0)
    rw [ip6StrDecodeAt_leaves (by simp) hleaves] at this
    exact absurd this (by decide)
  · intro hin
    constructor
    · intro dst
      rw [ip6StrDecodeAt_eq (by simp) hlen hin]
      rfl
    · intro dst
      have h := @ip4StrDecodeAt_eq str dst.toList 0 str.length 0 (by omega) (by simp)
      rw [Nat.cast_zero] at h
      rw [h]
      rfl

end Groups

/-- The text `::1`. -/
theorem loopback_bounded : Bounded [58, 58, 49] := by
  refine (bounded_iff _ (by decide)).mpr ?_
  rintro ⟨⟨ds, rest, hs, -, hx⟩, -⟩
  have h46 : (46 : UInt8) ∈ [58, 58, 49] := by rw [hs]; simp
  exact absurd h46 (by decide)

/-- The text `1111.` is left by the scan. -/
theorem long_octet_leaves_text : ¬ Bounded [49, 49, 49, 49, 46] := by
  rintro ⟨h6, -⟩
  exact absurd (h6 (Vector.replicate 16 0)) (by decide +kernel)

end DnsPkt.AddressBounds
