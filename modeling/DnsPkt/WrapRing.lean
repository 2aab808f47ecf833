import Mathlib.Data.Nat.ModEq
import Mathlib.Logic.Function.Basic
import Mathlib.Tactic.Ring

/-!
# Rings with free-running indices

A ring has `n` slots, and its indices run through all values below `W` before
they start over, where `n` divides `W`. The entries between two indices are
read off the slots that the indices between them select. As long as there are
no more of them than slots, a new one does not touch the others.
-/

set_option autoImplicit false

namespace DnsPkt.WrapRing

def gap (W a b : ℕ) : ℕ := (b+W-a) % W

def next (W i : ℕ) : ℕ := (i+1) % W

section Indices

variable {W a b c i : ℕ}

theorem next_lt (hi : i < W) : next W i < W := Nat.mod_lt _ (by omega)

theorem next_eq (hi : i < W) : next W i = if i+1 = W then 0 else i+1 := by
  rw [next]
  split
  · next h => rw [h, Nat.mod_self]
  · next h => exact Nat.mod_eq_of_lt (by omega)

theorem gap_eq (ha : a < W) (hb : b < W) : gap W a b = if a ≤ b then b-a else b+W-a := by
  rw [gap]
  split
  · next h =>
    rw [show b+W-a = b-a+W by omega, Nat.add_mod_right, Nat.mod_eq_of_lt (by omega)]
  · next h => exact Nat.mod_eq_of_lt (by omega)

theorem gap_self (ha : a < W) : gap W a a = 0 := by
  rw [gap_eq ha ha, if_pos (Nat.le_refl a), Nat.sub_self]

theorem gap_pos (ha : a < W) (hb : b < W) (hne : a ≠ b) : 0 < gap W a b := by
  rw [gap_eq ha hb]
  split <;> omega

theorem gap_next_right (ha : a < W) (hb : b < W) (h : gap W a b+1 < W) :
    gap W a (next W b) = gap W a b+1 := by
  rw [gap_eq ha hb] at h ⊢
  rw [gap_eq ha (next_lt hb), next_eq hb]
  split_ifs at h ⊢ <;> omega

theorem gap_next_left (ha : a < W) (hb : b < W) (hne : a ≠ b) :
    gap W a b = gap W (next W a) b+1 := by
  rw [gap_eq ha hb, gap_eq (next_lt ha) hb, next_eq ha]
  split_ifs <;> omega

theorem gap_add (ha : a < W) (hb : b < W) (hc : c < W) (h : gap W a b+gap W b c < W) :
    gap W a c = gap W a b+gap W b c := by
  rw [gap_eq ha hb, gap_eq hb hc] at h ⊢
  rw [gap_eq ha hc]
  split_ifs at h ⊢ <;> omega

theorem add_gap (ha : a < W) (hb : b < W) : (a+gap W a b) % W = b := by
  rw [gap_eq ha hb]
  split
  · rw [show a+(b-a) = b by omega, Nat.mod_eq_of_lt hb]
  · rw [show a+(b+W-a) = b+W by omega, Nat.add_mod_right, Nat.mod_eq_of_lt hb]

end Indices

section Entries

variable {α : Type} (W n : ℕ) (cells : ℕ → α)

def entries (a b : ℕ) : List α := (List.range (gap W a b)).map fun k => cells ((a+k) % W % n)

variable {W n cells} {a b c : ℕ}

theorem entries_self (ha : a < W) : entries W n cells a a = [] := by
  rw [entries, gap_self ha]
  rfl

theorem entries_cons (ha : a < W) (hb : b < W) (hne : a ≠ b) :
    entries W n cells a b = cells (a % n) :: entries W n cells (next W a) b := by
  rw [entries, gap_next_left ha hb hne, List.range_succ_eq_map, List.map_cons, List.map_map,
    Nat.add_zero, Nat.mod_eq_of_lt ha]
  refine congrArg (_ :: ·) (List.map_congr_left fun k _ => ?_)
  have hidx : (next W a+k) % W = (a+(k+1)) % W := by
    rw [next, Nat.mod_add_mod]
    congr 1
    omega
  exact congrArg cells (by rw [hidx])

theorem entries_map {β : Type} (f : α → β) :
    entries W n (fun k => f (cells k)) a b = (entries W n cells a b).map f := by
  rw [entries, entries, List.map_map]
  rfl

theorem entries_append (ha : a < W) (hb : b < W) (hc : c < W) (h : gap W a b+gap W b c < W) :
    entries W n cells a c = entries W n cells a b ++ entries W n cells b c := by
  have hsplit : List.range (gap W a c) = List.range (gap W a b) ++
      (List.range (gap W b c)).map (gap W a b+·) := by
    rw [gap_add ha hb hc h, List.range_add]
  rw [entries, hsplit, List.map_append, List.map_map]
  refine congrArg (_ ++ ·) (List.map_congr_left fun k _ => ?_)
  have hidx : (a+(gap W a b+k)) % W = (b+k) % W := by
    rw [← Nat.add_assoc, ← Nat.mod_add_mod, add_gap ha hb]
  exact congrArg cells (by rw [hidx])

/-- Indices that are less than a ring apart select different slots. -/
theorem slot_ne (hW : n ∣ W) {i j : ℕ} (hij : i < j) (hj : j < i+n) :
    i % W % n ≠ j % W % n := by
  rw [Nat.mod_mod_of_dvd _ hW, Nat.mod_mod_of_dvd _ hW]
  intro h
  have hdvd : n ∣ j-i := (Nat.modEq_iff_dvd' (by omega)).mp h
  have hle := Nat.le_of_dvd (by omega) hdvd
  omega

/-- A write to the slot of an index leaves the entries before it as they are. -/
theorem entries_update (hW : n ∣ W) (ha : a < W) (hb : b < W) (hc : c < W)
    (hroom : gap W a b+gap W b c < n) (hle : n ≤ W) (v : α) :
    entries W n (Function.update cells (c % n) v) a b = entries W n cells a b := by
  refine List.map_congr_left fun k hk => ?_
  rw [List.mem_range] at hk
  have hidx : c % n = (a+(gap W a b+gap W b c)) % W % n := by
    rw [← gap_add ha hb hc (by omega), add_gap ha hc]
  rw [Function.update_of_ne]
  rw [hidx]
  exact slot_ne hW (by omega) (by omega)

/-- A write to the slot of the last index, which then moves on. -/
theorem entries_push (hW : n ∣ W) (hlt : n < W) (ha : a < W) (hb : b < W) (hroom : gap W a b < n)
    (v : α) : entries W n (Function.update cells (b % n) v) a (next W b) =
      entries W n cells a b ++ [v] := by
  have hself : gap W b b = 0 := gap_self hb
  have hone : gap W b (next W b) = 1 := by
    rw [gap_next_right hb hb (by omega), hself]
  have hlast : entries W n (Function.update cells (b % n) v) b (next W b) = [v] := by
    rw [entries, hone]
    simp [Nat.mod_eq_of_lt hb]
  rw [entries_append ha hb (next_lt hb) (by omega), hlast,
    entries_update hW ha hb hb (by omega) (by omega)]

end Entries

end DnsPkt.WrapRing
