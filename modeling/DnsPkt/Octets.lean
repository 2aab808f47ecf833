import Mathlib.Data.List.Basic
import Mathlib.Data.List.Infix
import Mathlib.Data.List.TakeWhile
import Mathlib.Tactic.Ring

/-!
# Octet buffers

Slices and overwritten regions of byte lists, big-endian words, terminated
strings and the case folding of ASCII letters. Reads are stated against a
buffer that may later be extended, so that facts about a prefix survive.
-/

set_option autoImplicit false

namespace DnsPkt.Octets

abbrev Bytes := List UInt8

def slice (b : Bytes) (i n : ℕ) : Bytes := (b.drop i).take n

def patch (b : Bytes) (i : ℕ) (w : Bytes) : Bytes := b.take i ++ w ++ b.drop (i+w.length)

theorem length_slice (b : Bytes) (i n : ℕ) (h : i+n ≤ b.length) : (slice b i n).length = n := by
  simp only [slice, List.length_take, List.length_drop]
  omega

theorem length_slice_le (b : Bytes) (i n : ℕ) : (slice b i n).length ≤ n := by
  simp only [slice, List.length_take]
  omega

theorem slice_slice (b : Bytes) (i : ℕ) {n j k : ℕ} (h : j+k ≤ n) :
    slice (slice b i n) j k = slice b (i+j) k := by
  simp only [slice, List.drop_take, List.drop_drop, List.take_take]
  rw [show min k (n-j) = k by omega]

theorem slice_append (a c : Bytes) (i n : ℕ) (h : i+n ≤ a.length) :
    slice (a ++ c) i n = slice a i n := by
  simp only [slice]
  rw [List.drop_append_of_le_length (by omega), List.take_append_of_le_length]
  simp only [List.length_drop]
  omega

theorem slice_extend {a b : Bytes} (hp : a <+: b) (i n : ℕ) (h : i+n ≤ a.length) :
    slice b i n = slice a i n := by
  obtain ⟨c, rfl⟩ := hp
  exact slice_append a c i n h

theorem get_extend {a b : Bytes} (hp : a <+: b) {i : ℕ} {x : UInt8} (h : a[i]? = some x) :
    b[i]? = some x := by
  obtain ⟨c, rfl⟩ := hp
  obtain ⟨hi, -⟩ := List.getElem?_eq_some_iff.mp h
  rwa [List.getElem?_append_left hi]

theorem slice_at_end (a w c : Bytes) : slice (a ++ (w ++ c)) a.length w.length = w := by
  simp [slice]

theorem get_lt {b : Bytes} {i : ℕ} {x : UInt8} (h : b[i]? = some x) : i < b.length :=
  (List.getElem?_eq_some_iff.mp h).1

theorem get_inj {b : Bytes} {i : ℕ} {x y : UInt8} (hx : b[i]? = some x) (hy : b[i]? = some y) :
    x = y := by
  rw [hx] at hy
  exact Option.some.inj hy

@[simp] theorem patch_nil (b : Bytes) (i : ℕ) : patch b i [] = b := by
  simp [patch]

theorem length_patch (b : Bytes) (i : ℕ) (w : Bytes) (h : i+w.length ≤ b.length) :
    (patch b i w).length = b.length := by
  simp only [patch, List.length_append, List.length_take, List.length_drop]
  omega

theorem get_patch {b : Bytes} {p : ℕ} {w : Bytes} (h : p+w.length ≤ b.length) (i : ℕ) :
    (patch b p w)[i]? = if p ≤ i ∧ i < p+w.length then w[i-p]? else b[i]? := by
  have htake : (b.take p).length = p := by
    rw [List.length_take]
    omega
  rw [patch, List.append_assoc]
  by_cases h1 : i < p
  · rw [List.getElem?_append_left (by omega), List.getElem?_take_of_lt h1, if_neg (by omega)]
  · rw [List.getElem?_append_right (by omega), htake]
    by_cases h2 : i-p < w.length
    · rw [List.getElem?_append_left h2, if_pos (by omega)]
    · rw [List.getElem?_append_right (by omega), List.getElem?_drop, if_neg (by omega)]
      congr 1
      omega

theorem take_patch (b : Bytes) (i : ℕ) (w : Bytes) (h : i+w.length ≤ b.length) :
    (patch b i w).take (i+w.length) = b.take i ++ w := by
  have hlen : (b.take i ++ w).length = i+w.length := by
    rw [List.length_append, List.length_take, Nat.min_eq_left (by omega)]
  rw [patch, List.take_append_of_le_length hlen.ge, List.take_of_length_le hlen.le]

theorem patch_patch (b : Bytes) (i : ℕ) (x y : Bytes) (h : i+x.length ≤ b.length) :
    patch (patch b i x) (i+x.length) y = patch b i (x ++ y) := by
  have h1 : (patch b i x).take (i+x.length) = b.take i ++ x := take_patch b i x h
  have h2 : (patch b i x).drop (i+x.length+y.length) = b.drop (i+(x.length+y.length)) := by
    rw [patch, List.drop_append, List.drop_eq_nil_of_le (by simp; omega), List.nil_append,
      List.drop_drop]
    congr 1
    simp only [List.length_append, List.length_take]
    omega
  rw [patch, h1, h2]
  simp only [patch, List.length_append, List.append_assoc]

theorem patch_middle (x y z y' : Bytes) (h : y'.length = y.length) :
    patch (x ++ (y ++ z)) x.length y' = x ++ (y' ++ z) := by
  rw [patch, h, List.take_left, ← List.drop_drop, List.drop_left, List.drop_left, List.append_assoc]

theorem slice_patch_before (b : Bytes) (i : ℕ) (w : Bytes) (j n : ℕ)
    (h : j+n ≤ i) (hi : i ≤ b.length) : slice (patch b i w) j n = slice b j n := by
  rw [patch, List.append_assoc, slice_append _ _ _ _ (by simp; omega)]
  conv_rhs => rw [← List.take_append_drop i b]
  rw [slice_append _ _ _ _ (by simp; omega)]

theorem slice_patch_at (b : Bytes) (i : ℕ) (w : Bytes) (hi : i ≤ b.length) :
    slice (patch b i w) i w.length = w := by
  have hl : (b.take i).length = i := by simp; omega
  have := slice_at_end (b.take i) w (b.drop (i+w.length))
  rw [hl] at this
  rwa [patch, List.append_assoc]

def encU16 (v : UInt16) : Bytes := [UInt8.ofNat (v.toNat / 256), UInt8.ofNat v.toNat]

def decU16 (b : Bytes) : UInt16 :=
  UInt16.ofNat ((b.getD 0 0).toNat * 256 + (b.getD 1 0).toNat)

def encU32 (v : UInt32) : Bytes :=
  [UInt8.ofNat (v.toNat / 2^24), UInt8.ofNat (v.toNat / 2^16),
    UInt8.ofNat (v.toNat / 2^8), UInt8.ofNat v.toNat]

def decU32 (b : Bytes) : UInt32 :=
  UInt32.ofNat ((b.getD 0 0).toNat * 2^24 + (b.getD 1 0).toNat * 2^16 +
    (b.getD 2 0).toNat * 2^8 + (b.getD 3 0).toNat)

@[simp] theorem length_encU16 (v : UInt16) : (encU16 v).length = 2 := rfl

@[simp] theorem length_encU32 (v : UInt32) : (encU32 v).length = 4 := rfl

theorem toNat_decU16 (b : Bytes) :
    (decU16 b).toNat = (b.getD 0 0).toNat * 256 + (b.getD 1 0).toNat := by
  have h0 := (b.getD 0 0).toNat_lt
  have h1 := (b.getD 1 0).toNat_lt
  simp only [decU16, UInt16.toNat_ofNat']
  omega

theorem decU16_encU16 (v : UInt16) : decU16 (encU16 v) = v := by
  apply UInt16.toNat_inj.mp
  have := v.toNat_lt
  rw [toNat_decU16]
  simp only [encU16, List.getD_cons_zero, List.getD_cons_succ, UInt8.toNat_ofNat']
  omega

theorem decU32_encU32 (v : UInt32) : decU32 (encU32 v) = v := by
  apply UInt32.toNat_inj.mp
  have := v.toNat_lt
  simp only [decU32, encU32, List.getD_cons_zero, List.getD_cons_succ, UInt8.toNat_ofNat',
    UInt32.toNat_ofNat']
  omega

theorem ofNat_sub_mod (a b : ℕ) (h : b ≤ a) : UInt16.ofNat (a-b % 2^16) = UInt16.ofNat (a-b) := by
  apply UInt16.toNat_inj.mp
  simp only [UInt16.toNat_ofNat']
  omega

def cstr (b : Bytes) : Bytes := b.takeWhile (· ≠ 0)

theorem cstr_length_le (b : Bytes) : (cstr b).length ≤ b.length :=
  (List.takeWhile_sublist _).length_le

theorem cstr_of_no_zero (b : Bytes) (h : (0 : UInt8) ∉ b) : cstr b = b := by
  apply List.takeWhile_eq_self_iff.mpr
  intro x hx
  simpa using fun h0 : x = 0 => h (h0 ▸ hx)

theorem cstr_length_le_of_zero {b : Bytes} {k : ℕ} (h : b[k]? = some 0) : (cstr b).length ≤ k := by
  by_contra hlt
  have hk : k < (cstr b).length := by omega
  have hpre : cstr b <+: b := List.takeWhile_prefix _
  have hget : (cstr b)[k]? = some 0 := by
    rw [List.getElem?_eq_getElem hk, hpre.getElem hk]
    obtain ⟨hb, hz⟩ := List.getElem?_eq_some_iff.mp h
    rw [hz]
  have hmem := List.mem_of_getElem? hget
  simpa using List.mem_takeWhile_imp hmem

/-- What lies behind a zero does not change the string before it. -/
theorem cstr_take_of_zero {b : Bytes} {k : ℕ} (h : b[k]? = some 0) :
    cstr (b.take (k+1)) = cstr b := by
  induction b generalizing k with
  | nil => simp at h
  | cons x rest ih =>
    by_cases hx : x = 0
    · simp [cstr, hx]
    · cases k with
      | zero => simp_all
      | succ k =>
        have := ih (k := k) (by simpa using h)
        rw [List.take_succ_cons]
        simp only [cstr, List.takeWhile_cons, ne_eq, hx, not_false_eq_true, decide_true, if_true]
        exact congrArg (x :: ·) this

theorem zero_notMem_cstr (b : Bytes) : (0 : UInt8) ∉ cstr b := by
  intro h
  simpa using List.mem_takeWhile_imp h

theorem cstr_append_zero (b c : Bytes) : cstr (b ++ 0 :: c) = cstr b := by
  induction b with
  | nil => simp [cstr]
  | cons x b ih =>
    by_cases hx : x = 0
    · simp [cstr, hx]
    · simpa [cstr, hx] using ih

def lower (c : UInt8) : UInt8 := if 65 ≤ c ∧ c ≤ 90 then c+32 else c

def fold (b : Bytes) : Bytes := b.map lower

@[simp] theorem length_fold (b : Bytes) : (fold b).length = b.length := by simp [fold]

@[simp] theorem fold_append (a b : Bytes) : fold (a ++ b) = fold a ++ fold b := by simp [fold]

end DnsPkt.Octets
