import DnsPkt.Octets
import Mathlib.Tactic.Ring

/-!
# Integers in either byte order

An integer of a given width is stored low byte first, or with its bytes
reversed. Reading it in the order in which it was stored gives it back,
reduced to its width.
-/

set_option autoImplicit false

namespace DnsPkt.ByteOrder
open DnsPkt.Octets

def load : Bytes → ℕ
  | [] => 0
  | x :: b => x.toNat+256*load b

def store : ℕ → ℕ → Bytes
  | 0, _ => []
  | w+1, v => UInt8.ofNat v :: store w (v/256)

def byteSwap (w v : ℕ) : ℕ := load (store w v).reverse

def loadAs (swap : Bool) (b : Bytes) : ℕ :=
  if swap then byteSwap b.length (load b) else load b

def storeAs (swap : Bool) (w v : ℕ) : Bytes := if swap then (store w v).reverse else store w v

@[simp] theorem length_store (w v : ℕ) : (store w v).length = w := by
  induction w generalizing v with
  | zero => rfl
  | succ w ih => rw [store, List.length_cons, ih]

@[simp] theorem length_storeAs (swap : Bool) (w v : ℕ) : (storeAs swap w v).length = w := by
  cases swap <;> simp [storeAs]

theorem load_lt (b : Bytes) : load b < 256^b.length := by
  induction b with
  | nil => simp [load]
  | cons x b ih =>
    have := x.toNat_lt
    rw [load, List.length_cons, pow_succ]
    omega

theorem load_store (w v : ℕ) : load (store w v) = v % 256^w := by
  induction w generalizing v with
  | zero => simp [store, load, Nat.mod_one]
  | succ w ih =>
    rw [store, load, ih, UInt8.toNat_ofNat', show 256^(w+1) = 256*256^w from pow_succ' 256 w,
      Nat.mod_mul (x := v)]

theorem store_load (b : Bytes) : store b.length (load b) = b := by
  induction b with
  | nil => rfl
  | cons x b ih =>
    have hx := x.toNat_lt
    have hdiv : (x.toNat+256*load b)/256 = load b := by omega
    have hmod : UInt8.ofNat (x.toNat+256*load b) = x := by
      apply UInt8.toNat_inj.mp
      rw [UInt8.toNat_ofNat']
      omega
    rw [load, List.length_cons, store, hdiv, hmod, ih]

theorem loadAs_eq (swap : Bool) (b : Bytes) :
    loadAs swap b = load (if swap then b.reverse else b) := by
  cases swap
  · rfl
  · simp [loadAs, byteSwap, store_load]

theorem loadAs_lt (swap : Bool) {b : Bytes} {w : ℕ} (h : b.length ≤ w) :
    loadAs swap b < 256^w := by
  rw [loadAs_eq]
  have hlt := load_lt (if swap then b.reverse else b)
  have hlen : (if swap then b.reverse else b).length = b.length := by cases swap <;> simp
  rw [hlen] at hlt
  exact hlt.trans_le (Nat.pow_le_pow_right (by decide) h)

theorem loadAs_storeAs (swap : Bool) (w v : ℕ) : loadAs swap (storeAs swap w v) = v % 256^w := by
  rw [loadAs_eq, ← load_store]
  cases swap <;> simp [storeAs]

theorem eq_storeAs {swap : Bool} {b : Bytes} {w v : ℕ} (hlen : b.length = w)
    (h : loadAs swap b = v) : b = storeAs swap w v := by
  rw [loadAs_eq] at h
  subst hlen h
  cases swap with
  | false => exact (store_load b).symm
  | true =>
    have hback := store_load b.reverse
    rw [List.length_reverse] at hback
    rw [storeAs, if_pos rfl, if_pos rfl, hback, List.reverse_reverse]

def fields (swap : Bool) (fs : List (ℕ × ℕ)) : Bytes := fs.flatMap fun f => storeAs swap f.1 f.2

theorem length_fields (swap : Bool) (fs : List (ℕ × ℕ)) :
    (fields swap fs).length = (fs.map Prod.fst).sum := by
  induction fs with
  | nil => rfl
  | cons f fs ih =>
    rw [fields, List.flatMap_cons, List.length_append, length_storeAs]
    simp only [fields] at ih
    rw [ih, List.map_cons, List.sum_cons]

theorem slice_behind (a b : Bytes) (i n : ℕ) : slice (a ++ b) (a.length+i) n = slice b i n := by
  rw [slice, slice, ← List.drop_drop, List.drop_left]

/-- Every field is found behind those before it. -/
theorem field_at (swap : Bool) (before : List (ℕ × ℕ)) (w v : ℕ) (rest : List (ℕ × ℕ))
    (c : Bytes) {i : ℕ} (hi : i = (before.map Prod.fst).sum) :
    loadAs swap (slice (fields swap (before ++ (w, v) :: rest) ++ c) i w) = v % 256^w := by
  have hsplit : fields swap (before ++ (w, v) :: rest) ++ c =
      fields swap before ++ (storeAs swap w v ++ (fields swap rest ++ c)) := by
    simp [fields, List.flatMap_append]
  have hslice := slice_at_end (fields swap before) (storeAs swap w v) (fields swap rest ++ c)
  rw [length_storeAs, length_fields, ← hi] at hslice
  rw [hsplit, hslice, loadAs_storeAs]

end DnsPkt.ByteOrder
