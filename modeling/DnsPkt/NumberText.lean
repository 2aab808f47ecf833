import DnsPkt.CheckedRun
import DnsPkt.ReportText

/-!
# The number texts

`u32_tostr` and `int_tostr` put a number into the next of sixteen slots of a
static buffer and return where its text begins. `u32toa` is given the size of
the slot and writes from its end to the front.
-/

set_option autoImplicit false

namespace DnsPkt.NumberText
open DnsPkt.CheckedRun DnsPkt.CheckedRun.Run DnsPkt.Octets DnsPkt.ReportText

abbrev slotLen : ℕ := 10
abbrev bufsLen : ℕ := 160

/-- The static buffer and the index of the next slot. `wrote` lists the places
that the current call has written. -/
structure TextSlots where
  bufs : Bytes
  idx : Fin 16
  wrote : List ℕ
  size : bufs.length = bufsLen

/-- A write at or behind the end of the buffer, or in front of it. -/
inductive SlotFault where
  | behind (index : ℕ)
  | front
  deriving DecidableEq, Repr

abbrev Slots := Run TextSlots Empty SlotFault

def putByte (p : ℕ) (c : UInt8) : Slots Unit := fun s =>
  if h : p+1 ≤ bufsLen then
    .ok () { s with
      bufs := patch s.bufs p [c]
      wrote := s.wrote ++ [p]
      size := by rw [length_patch _ _ _ (by rw [s.size]; exact h), s.size] }
  else .fault (.behind p)

def pushByte (str : ℕ) (c : UInt8) : Slots ℕ :=
  if str = 0 then fault .front else do
    putByte (str-1) c
    pure (str-1)

def digit (val : ℕ) : UInt8 := UInt8.ofNat (val % 10+48)

def digitLoop : ℕ → ℕ → ℕ → Slots ℕ
  | 0, _, str => pure str
  | k+1, val, str =>
    if val = 0 then pure str else do
      let str ← pushByte str (digit val)
      digitLoop k (val/10) str

/-- A value has at most as many digits as it is large. -/
def u32toa (val buf len : ℕ) : Slots ℕ :=
  if len = 0 then pure buf else do
    putByte (buf+len-1) 0
    let str ← if val = 0 then pushByte (buf+len-1) 48 else pure (buf+len-1)
    digitLoop val val str

/-- The next slot is given to `u32toa` with size `len`. -/
def slotTostr (len val : ℕ) : Slots ℕ := do
  let s ← get
  modify fun s => { s with idx := s.idx+1 }
  u32toa val (s.idx.val*slotLen) len

/-- `sizeof(bufs[0][0])`, which is the size of a byte. -/
abbrev u32Size : ℕ := 1

def u32Tostr (val : UInt32) : Slots ℕ := slotTostr u32Size val.toNat

theorem decimal_small {val : ℕ} (h : val < 10) : decimal val = [digit val] := by
  have table : ∀ i : Fin 10, decimal i = [digit i] := by decide
  exact table ⟨val, h⟩

theorem decimal_step {val : ℕ} (h : 10 ≤ val) :
    decimal val = decimal (val/10) ++ [digit val] := by
  have table : ∀ i : Fin 10, UInt8.ofNat (Nat.digitChar i).toNat = UInt8.ofNat (i.val+48) := by
    decide
  have hlast := table ⟨val % 10, Nat.mod_lt val (by decide)⟩
  rw [decimal, Nat.toDigits_of_base_le (by decide) h, List.map_append, List.map_singleton, hlast]
  rfl

theorem decimal_pos (val : ℕ) : 0 < (decimal val).length := by
  rw [decimal, List.length_map]
  exact Nat.length_toDigits_pos

theorem decimal_no_zero (val : ℕ) : (0 : UInt8) ∉ decimal val := by
  have hdigit (n : ℕ) : (0 : UInt8) ≠ digit n := by
    have table : ∀ i : Fin 10, (0 : UInt8) ≠ UInt8.ofNat (i.val+48) := by decide
    exact table ⟨n % 10, Nat.mod_lt n (by decide)⟩
  induction val using Nat.strongRecOn with
  | ind val ih =>
    by_cases h : val < 10
    · rw [decimal_small h, List.mem_singleton]
      exact hdigit val
    · rw [decimal_step (Nat.le_of_not_lt h), List.mem_append, List.mem_singleton]
      rintro (hrest | hlast)
      · exact ih (val/10) (by omega) hrest
      · exact hdigit val hlast

structure Writes (s t : TextSlots) (p : ℕ) (w : Bytes) : Prop where
  bufs : t.bufs = patch s.bufs p w
  idx : t.idx = s.idx
  wrote : ∀ i, i ∈ t.wrote ↔ i ∈ s.wrote ∨ p ≤ i ∧ i < p+w.length

/-- Bytes that are put in front of other bytes. -/
theorem patch_front (b : Bytes) (i : ℕ) (x y : Bytes) (h : i+x.length+y.length ≤ b.length) :
    patch (patch b (i+x.length) y) i x = patch b i (x ++ y) := by
  apply List.ext_getElem?
  intro j
  have hin : (patch b (i+x.length) y).length = b.length := length_patch b _ y h
  rw [get_patch (by omega), get_patch h, get_patch (by rw [List.length_append]; omega),
    List.length_append]
  by_cases hx : i ≤ j ∧ j < i+x.length
  · rw [if_pos hx, if_pos (by omega), List.getElem?_append_left (by omega)]
  rw [if_neg hx]
  by_cases hy : i+x.length ≤ j ∧ j < i+x.length+y.length
  · rw [if_pos hy, if_pos (by omega), List.getElem?_append_right (by omega)]
    congr 1
    omega
  · rw [if_neg hy, if_neg (by omega)]

theorem Writes.trans {s m t : TextSlots} {p : ℕ} {x y : Bytes} (hy : Writes s m (p+x.length) y)
    (hx : Writes m t p x) (h : p+x.length+y.length ≤ bufsLen) : Writes s t p (x ++ y) where
  bufs := by rw [hx.bufs, hy.bufs, patch_front _ _ _ _ (by rw [s.size]; exact h)]
  idx := hx.idx.trans hy.idx
  wrote i := by
    rw [hx.wrote, hy.wrote, List.length_append]
    constructor
    · rintro ((hi | hi) | hi)
      · exact .inl hi
      · exact .inr (by omega)
      · exact .inr (by omega)
    · rintro (hi | hi)
      · exact .inl (.inl hi)
      · by_cases hlt : i < p+x.length
        · exact .inr ⟨hi.1, hlt⟩
        · exact .inl (.inr (by omega))

theorem putByte_run {p : ℕ} (c : UInt8) (s : TextSlots) (h : p+1 ≤ bufsLen) :
    ∃ t, putByte p c s = .ok () t ∧ Writes s t p [c] := by
  rw [putByte, dif_pos h]
  refine ⟨_, rfl, rfl, rfl, fun i => ?_⟩
  have hplace : i = p ↔ p ≤ i ∧ i < p+1 := by omega
  rw [List.mem_append, List.mem_singleton, List.length_singleton, hplace]

theorem pushByte_run {str : ℕ} (c : UInt8) (s : TextSlots) (hpos : 0 < str) (h : str ≤ bufsLen) :
    ∃ t, pushByte str c s = .ok (str-1) t ∧ Writes s t (str-1) [c] := by
  obtain ⟨t, hrun, hw⟩ := putByte_run c s (show str-1+1 ≤ bufsLen by omega)
  rw [pushByte, if_neg (by omega), bind_of_ok hrun]
  exact ⟨t, rfl, hw⟩

theorem digitLoop_run {k val str : ℕ} (s : TextSlots) (hk : val ≤ k) (hval : 0 < val)
    (hroom : (decimal val).length ≤ str) (hstr : str ≤ bufsLen) :
    ∃ t, digitLoop k val str s = .ok (str-(decimal val).length) t ∧
      Writes s t (str-(decimal val).length) (decimal val) := by
  induction k generalizing val str s with
  | zero => omega
  | succ k ih =>
    have hpos := decimal_pos val
    obtain ⟨m, hpush, hm⟩ := pushByte_run (digit val) s (by omega) hstr
    rw [digitLoop, if_neg (by omega), bind_of_ok hpush]
    by_cases h : val < 10
    · have hz : val/10 = 0 := Nat.div_eq_of_lt h
      rw [decimal_small h, hz]
      refine ⟨m, ?_, hm⟩
      cases k with
      | zero => rfl
      | succ k => rfl
    · have hlen := congrArg List.length (decimal_step (Nat.le_of_not_lt h))
      rw [List.length_append, List.length_singleton] at hlen
      obtain ⟨t, hrun, ht⟩ := ih m (show val/10 ≤ k by omega) (by omega)
        (show (decimal (val/10)).length ≤ str-1 by omega) (by omega)
      have hplace : str-1-(decimal (val/10)).length = str-(decimal val).length := by omega
      rw [hplace] at hrun ht
      refine ⟨t, hrun, ?_⟩
      have hfrom : str-(decimal val).length+(decimal (val/10)).length = str-1 := by omega
      rw [← hfrom] at hm
      have hboth := hm.trans ht (by rw [List.length_singleton]; omega)
      rwa [← decimal_step (Nat.le_of_not_lt h)] at hboth

theorem digitLoop_front {k val str : ℕ} (s : TextSlots) (hk : val ≤ k)
    (hroom : str < (decimal val).length) (hval : 0 < val) (hstr : str ≤ bufsLen) :
    digitLoop k val str s = .fault .front := by
  induction k generalizing val str s with
  | zero => omega
  | succ k ih =>
    rw [digitLoop, if_neg (by omega)]
    by_cases hz : str = 0
    · rw [pushByte, if_pos hz]
      rfl
    · obtain ⟨m, hpush, -⟩ := pushByte_run (digit val) s (Nat.pos_of_ne_zero hz) hstr
      have hbig : 10 ≤ val := by
        by_contra hlt
        rw [decimal_small (Nat.lt_of_not_le hlt), List.length_singleton] at hroom
        omega
      have hlen := congrArg List.length (decimal_step hbig)
      rw [List.length_append, List.length_singleton] at hlen
      rw [bind_of_ok hpush]
      exact ih m (by omega) (by omega) (by omega) (by omega)

section Conversion

variable {val buf len : ℕ} (hlen : 0 < len) (hin : buf+len ≤ bufsLen)
include hlen hin

/-- The text and its end are put at the end of the area. -/
theorem u32toa_run (s : TextSlots) (hroom : (decimal val).length ≤ buf+len-1) :
    ∃ t, u32toa val buf len s = .ok (buf+len-1-(decimal val).length) t ∧
      Writes s t (buf+len-1-(decimal val).length) (decimal val ++ [0]) := by
  obtain ⟨m, hput, hm⟩ := putByte_run 0 s (show buf+len-1+1 ≤ bufsLen by omega)
  have hfrom : buf+len-1-(decimal val).length+(decimal val).length = buf+len-1 := by omega
  rw [← hfrom] at hm
  rw [u32toa, if_neg (by omega), bind_of_ok hput]
  have hdone {t : TextSlots} (ht : Writes m t (buf+len-1-(decimal val).length) (decimal val)) :
      Writes s t (buf+len-1-(decimal val).length) (decimal val ++ [0]) :=
    hm.trans ht (by rw [List.length_singleton]; omega)
  by_cases hz : val = 0
  · subst hz
    have htext : decimal 0 = [48] := rfl
    rw [htext] at hroom hdone
    obtain ⟨t, hpush, ht⟩ := pushByte_run 48 m hroom (by omega)
    rw [if_pos rfl, bind_of_ok hpush]
    exact ⟨t, rfl, hdone ht⟩
  · obtain ⟨t, hloop, ht⟩ := digitLoop_run m (Nat.le_refl val) (Nat.pos_of_ne_zero hz) hroom
      (by omega)
    rw [if_neg hz]
    exact ⟨t, hloop, hdone ht⟩

/-- A text that is longer than what is in front of the end leaves the buffer. -/
theorem u32toa_front (s : TextSlots) (hroom : buf+len-1 < (decimal val).length) :
    u32toa val buf len s = .fault .front := by
  obtain ⟨m, hput, -⟩ := putByte_run 0 s (show buf+len-1+1 ≤ bufsLen by omega)
  rw [u32toa, if_neg (by omega), bind_of_ok hput]
  by_cases hz : val = 0
  · subst hz
    have htext : decimal 0 = [48] := rfl
    rw [htext, List.length_singleton] at hroom
    rw [if_pos rfl, pushByte, if_pos (by omega)]
    rfl
  · rw [if_neg hz]
    exact digitLoop_front m (Nat.le_refl val) hroom (Nat.pos_of_ne_zero hz) (by omega)

end Conversion

/-- A call: its value, the slot it selected, the string it returned, what that
string was then and the places the call wrote. -/
structure Returned where
  value : ℕ
  slot : Fin 16
  str : ℕ
  text : Bytes
  wrote : List ℕ

def textAt (s : TextSlots) (str : ℕ) : Bytes := cstr (s.bufs.drop str)

def numberCall (len val : ℕ) : Slots Returned := do
  modify fun s => { s with wrote := [] }
  let s ← get
  let str ← slotTostr len val
  let t ← get
  pure ⟨val, s.idx, str, textAt t str, t.wrote⟩

def numberCalls (len : ℕ) : List ℕ → Slots (List Returned)
  | [] => pure []
  | val :: vals => do
    let r ← numberCall len val
    let rs ← numberCalls len vals
    pure (r :: rs)

def InSlot (slot : Fin 16) (i : ℕ) : Prop :=
  slot.val*slotLen ≤ i ∧ i < slot.val*slotLen+slotLen

/-- No call writes outside its slot, every call returns the text of its value, and
the latest sixteen strings are still there. -/
def Isolated (len : ℕ) (s : TextSlots) (vals : List ℕ) : Prop :=
  ∃ rs t, numberCalls len vals s = .ok rs t ∧
    (∀ r ∈ rs, ∀ i ∈ r.wrote, InSlot r.slot i) ∧
    (∀ r ∈ rs, r.text = decimal r.value) ∧
    ∀ r ∈ rs.reverse.take 16, textAt t r.str = decimal r.value

structure Stands (s : TextSlots) (r : Returned) : Prop where
  front : r.slot.val*slotLen ≤ r.str
  behind : r.str+(decimal r.value ++ [0]).length ≤ r.slot.val*slotLen+slotLen
  bytes : slice s.bufs r.str (decimal r.value ++ [0]).length = decimal r.value ++ [0]

theorem Stands.text {s : TextSlots} {r : Returned} (h : Stands s r) :
    textAt s r.str = decimal r.value := by
  have hsplit : s.bufs.drop r.str = decimal r.value ++
      0 :: (s.bufs.drop r.str).drop (decimal r.value ++ [0]).length := by
    conv_lhs => rw [← List.take_append_drop (decimal r.value ++ [0]).length (s.bufs.drop r.str)]
    rw [← slice, h.bytes, List.append_assoc]
    rfl
  rw [textAt, hsplit, cstr_append_zero, cstr_of_no_zero _ (decimal_no_zero r.value)]

theorem slice_patch_behind (b : Bytes) (i : ℕ) (w : Bytes) (j n : ℕ) (h : i+w.length ≤ j)
    (hi : i+w.length ≤ b.length) : slice (patch b i w) j n = slice b j n := by
  have hdrop : (patch b i w).drop j = b.drop j := by
    apply List.ext_getElem?
    intro k
    rw [List.getElem?_drop, List.getElem?_drop, get_patch hi, if_neg (by omega)]
  rw [slice, slice, hdrop]

/-- A write into another slot leaves the string alone. -/
theorem Stands.keep {s t : TextSlots} {r : Returned} (h : Stands s r) {slot : Fin 16}
    (hne : slot ≠ r.slot) {p : ℕ} {w : Bytes} (hw : t.bufs = patch s.bufs p w)
    (hfront : slot.val*slotLen ≤ p) (hbehind : p+w.length ≤ slot.val*slotLen+slotLen) :
    Stands t r where
  front := h.front
  behind := h.behind
  bytes := by
    have hval : slot.val ≠ r.slot.val := fun he => hne (Fin.ext he)
    have hsize : s.bufs.length = 160 := s.size
    have h1 := h.front
    have h2 := h.behind
    have hslot := slot.isLt
    have hlast := r.slot.isLt
    unfold slotLen at *
    rw [hw]
    rcases Nat.lt_or_gt_of_ne hval with hlt | hgt
    · rw [slice_patch_behind _ _ _ _ _ (by omega) (by omega)]
      exact h.bytes
    · rw [slice_patch_before _ _ _ _ _ (by omega) (by omega)]
      exact h.bytes

theorem numberCall_of {len val str : ℕ} {s t : TextSlots}
    (h : slotTostr len val { s with wrote := [] } = .ok str t) :
    numberCall len val s = .ok ⟨val, s.idx, str, textAt t str, t.wrote⟩ t := by
  rw [numberCall, bind_of_ok (modify_run _ _), bind_of_ok (get_run _), bind_of_ok h]
  rfl

section Calls

variable {len : ℕ} (hlen : 0 < len) (hslot : len ≤ slotLen)
include hlen hslot

/-- What one call does when its text and the end of it fit the size. -/
theorem numberCall_run {val : ℕ} (s : TextSlots) (h : (decimal val).length < len) :
    ∃ r t, numberCall len val s = .ok r t ∧ r.value = val ∧ r.slot = s.idx ∧
      t.idx = s.idx+1 ∧ t.bufs = patch s.bufs r.str (decimal val ++ [0]) ∧ Stands t r ∧
      r.text = decimal val ∧ ∀ i ∈ r.wrote, InSlot r.slot i := by
  have hidx := s.idx.isLt
  have hsize : s.bufs.length = 160 := s.size
  have htext : (decimal val ++ [0]).length = (decimal val).length+1 := List.length_append
  unfold slotLen at hslot
  obtain ⟨t, hrun, hw⟩ := @u32toa_run val (s.idx.val*10) len hlen
    (show s.idx.val*10+len ≤ 160 by omega) { s with wrote := [], idx := s.idx+1 } (by omega)
  have hstands : Stands t ⟨val, s.idx, s.idx.val*10+len-1-(decimal val).length,
      textAt t (s.idx.val*10+len-1-(decimal val).length), t.wrote⟩ := by
    constructor
    · dsimp only [slotLen]
      omega
    · dsimp only [slotLen]
      omega
    · dsimp only
      rw [hw.bufs]
      exact slice_patch_at _ _ _ (by dsimp only; omega)
  refine ⟨_, t, numberCall_of hrun, rfl, rfl, hw.idx, hw.bufs, hstands, hstands.text, ?_⟩
  intro i hi
  rcases (hw.wrote i).mp hi with hnone | hi
  · cases hnone
  · exact ⟨by dsimp only [slotLen]; omega, by dsimp only [slotLen]; omega⟩

/-- A call whose text does not fit leaves its slot or the buffer. -/
theorem numberCall_leaves {val : ℕ} (s : TextSlots) (h : len ≤ (decimal val).length) :
    numberCall len val s = .fault .front ∨
      ∃ r t, numberCall len val s = .ok r t ∧ ∃ i ∈ r.wrote, ¬ InSlot r.slot i := by
  have hidx := s.idx.isLt
  have hsize : s.bufs.length = 160 := s.size
  have htext : (decimal val ++ [0]).length = (decimal val).length+1 := List.length_append
  unfold slotLen at hslot
  by_cases hroom : (decimal val).length ≤ s.idx.val*10+len-1
  · obtain ⟨t, hrun, hw⟩ := @u32toa_run val _ len hlen
      (show s.idx.val*10+len ≤ 160 by omega) { s with wrote := [], idx := s.idx+1 } hroom
    refine .inr ⟨_, t, numberCall_of hrun,
      s.idx.val*10+len-1-(decimal val).length, (hw.wrote _).mpr (.inr (by omega)), ?_⟩
    rintro ⟨hfront, -⟩
    dsimp only [slotLen] at hfront
    omega
  · have hrun := @u32toa_front val _ len hlen
      (show s.idx.val*10+len ≤ 160 by omega) { s with wrote := [], idx := s.idx+1 }
        (Nat.lt_of_not_le hroom)
    have htostr : slotTostr len val { s with wrote := [] } = .fault .front := hrun
    rw [numberCall, bind_of_ok (modify_run _ _), bind_of_ok (get_run _), bind_of_fault htostr]
    exact .inl rfl

/-- The latest sixteen calls, the last one first, each in the slot that many
places behind the index. -/
def Kept (past : List Returned) (s : TextSlots) : Prop :=
  ∀ j r, past[j]? = some r → j < 16 → (r.slot.val+(j+1)) % 16 = s.idx.val ∧ Stands s r

theorem Kept.call {past : List Returned} {s : TextSlots} (hpast : Kept past s) {val : ℕ}
    (h : (decimal val).length < len) : ∃ r t, numberCall len val s = .ok r t ∧
      r.text = decimal r.value ∧ (∀ i ∈ r.wrote, InSlot r.slot i) ∧ Kept (r :: past) t := by
  obtain ⟨r, t, hrun, hval, hslot', hidx, hbufs, hstands, htext, hin⟩ :=
    numberCall_run hlen hslot s h
  refine ⟨r, t, hrun, by rw [htext, hval], hin, ?_⟩
  have hnext : t.idx.val = (s.idx.val+1) % 16 := by
    rw [hidx, Fin.val_add]
    rfl
  intro j q hq hj
  cases j with
  | zero =>
    cases hq
    exact ⟨by rw [hnext, hslot'], hstands⟩
  | succ j =>
    obtain ⟨hplace, hq'⟩ := hpast j q hq (by omega)
    have hlt := q.slot.isLt
    have hne : r.slot ≠ q.slot := by
      intro heq
      rw [← heq, hslot'] at hplace
      omega
    have hfront := hstands.front
    have hbehind := hstands.behind
    rw [hval] at hbehind
    exact ⟨by omega, hq'.keep hne hbufs hfront hbehind⟩

theorem numberCalls_run {vals : List ℕ} {past : List Returned} {s : TextSlots}
    (hpast : Kept past s) (h : ∀ val ∈ vals, (decimal val).length < len) :
    ∃ rs t, numberCalls len vals s = .ok rs t ∧ (∀ r ∈ rs, ∀ i ∈ r.wrote, InSlot r.slot i) ∧
      (∀ r ∈ rs, r.text = decimal r.value) ∧ Kept (rs.reverse ++ past) t := by
  induction vals generalizing past s with
  | nil => exact ⟨[], s, rfl, by simp, by simp, hpast⟩
  | cons val vals ih =>
    obtain ⟨r, m, hcall, htext, hin, hkept⟩ :=
      hpast.call hlen hslot (h val (List.mem_cons_self ..))
    obtain ⟨rs, t, hrest, hins, htexts, hall⟩ :=
      ih hkept fun v hv => h v (List.mem_cons_of_mem val hv)
    refine ⟨r :: rs, t, ?_, ?_, ?_, ?_⟩
    · rw [numberCalls, bind_of_ok hcall, bind_of_ok hrest]
      rfl
    · exact List.forall_mem_cons.mpr ⟨hin, hins⟩
    · exact List.forall_mem_cons.mpr ⟨htext, htexts⟩
    · rwa [List.reverse_cons, List.append_assoc]

/-- The slots are isolated exactly when every text and its end fit the size. -/
theorem isolated_iff (s : TextSlots) (vals : List ℕ) :
    Isolated len s vals ↔ ∀ val ∈ vals, (decimal val).length < len := by
  constructor
  · rintro ⟨rs, t, hrun, hin, -, -⟩
    induction vals generalizing s rs with
    | nil => simp
    | cons val vals ih =>
      have hfits : (decimal val).length < len := by
        by_contra hlong
        obtain hfault | ⟨r, m, hcall, i, hi, hout⟩ :=
          numberCall_leaves hlen hslot s (Nat.le_of_not_lt hlong)
        · rw [numberCalls, bind_of_fault hfault] at hrun
          cases hrun
        · rw [numberCalls, bind_of_ok hcall] at hrun
          obtain ⟨rs', u, -, hpure⟩ := (bind_ok _ _ _ _ _).mp hrun
          cases hpure
          exact hout (hin r (List.mem_cons_self ..) i hi)
      obtain ⟨r, m, hcall, -⟩ := numberCall_run hlen hslot s hfits
      rw [numberCalls, bind_of_ok hcall] at hrun
      obtain ⟨rs', u, hrest, hpure⟩ := (bind_ok _ _ _ _ _).mp hrun
      cases hpure
      exact List.forall_mem_cons.mpr
        ⟨hfits, ih m rs' hrest fun q hq => hin q (List.mem_cons_of_mem r hq)⟩
  · intro h
    obtain ⟨rs, t, hrun, hin, htext, hkept⟩ :=
      @numberCalls_run len hlen hslot vals [] s (fun j r hr => by cases hr) h
    rw [List.append_nil] at hkept
    refine ⟨rs, t, hrun, hin, htext, ?_⟩
    intro r hr
    obtain ⟨j, hj, hget⟩ := List.mem_iff_getElem.mp hr
    rw [List.length_take] at hj
    rw [List.getElem_take] at hget
    obtain ⟨-, hstands⟩ := hkept j r (by rw [← hget, List.getElem?_eq_getElem]) (by omega)
    exact hstands.text

end Calls

/-- The slots of `u32_tostr` are not isolated by any call. -/
theorem u32_slots_isolated_iff (s : TextSlots) (vals : List UInt32) :
    Isolated u32Size s (vals.map UInt32.toNat) ↔ vals = [] := by
  rw [isolated_iff (by decide) (by decide)]
  constructor
  · intro h
    cases vals with
    | nil => rfl
    | cons val vals =>
      have hpos := decimal_pos val.toNat
      have hfits := h val.toNat (List.mem_cons_self ..)
      change _ < 1 at hfits
      omega
  · rintro rfl
    simp

def firstSlots : TextSlots := ⟨List.replicate 160 0, 0, [], List.length_replicate⟩

theorem first_number_outside :
    u32Tostr 7 firstSlots = .fault .front ∧ ¬ Isolated u32Size firstSlots [7] := by
  have hfault : u32Tostr 7 firstSlots = .fault .front := rfl
  refine ⟨hfault, ?_⟩
  rintro ⟨rs, t, hrun, -⟩
  have hcall : numberCall u32Size 7 firstSlots = .fault .front := rfl
  rw [numberCalls, bind_of_fault hcall] at hrun
  cases hrun

end DnsPkt.NumberText
