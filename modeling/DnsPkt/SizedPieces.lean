import Mathlib.Data.List.Basic
import Mathlib.Tactic.Ring

/-!
# Sequences that announce the sizes of their pieces

A walk over a sequence takes the size that the front announces, cuts that
many elements off and goes on behind them. A sequence made of pieces that
announce their own lengths is cut into exactly these pieces.
-/

set_option autoImplicit false

namespace DnsPkt.SizedPieces

variable {α : Type} (size : List α → ℕ)

/-- A walk of a number of jumps, which fails at a size that is zero or goes
beyond the end. -/
def cut : ℕ → List α → Option (List (List α))
  | _, [] => some []
  | 0, _ :: _ => none
  | k+1, x :: xs =>
    let n := size (x :: xs)
    if 0 < n ∧ n ≤ (x :: xs).length then
      (cut k ((x :: xs).drop n)).map ((x :: xs).take n :: ·)
    else none

def pieces (xs : List α) : Option (List (List α)) := cut size xs.length xs

def Announces (p : List α) : Prop := p ≠ [] ∧ ∀ rest, size (p ++ rest) = p.length

variable {size}

theorem cut_append {k : ℕ} {p : List α} (h : Announces size p) (rest : List α) :
    cut size (k+1) (p ++ rest) = (cut size k rest).map (p :: ·) := by
  obtain ⟨hne, hsize⟩ := h
  have hfull := hsize rest
  have hpos := List.length_pos_iff.mpr hne
  have hle : p.length ≤ (p ++ rest).length := by simp
  obtain ⟨x, xs, hcons⟩ := List.exists_cons_of_ne_nil (List.append_ne_nil_of_left_ne_nil hne rest)
  rw [hcons] at hfull hle ⊢
  rw [cut, hfull, if_pos ⟨hpos, hle⟩, ← hcons, List.drop_left, List.take_left]

theorem cut_flatten {k : ℕ} {ps : List (List α)} (h : ∀ p ∈ ps, Announces size p)
    (hk : ps.length ≤ k) : cut size k ps.flatten = some ps := by
  induction ps generalizing k with
  | nil => cases k <;> rfl
  | cons p ps ih =>
    obtain ⟨hp, hps⟩ := List.forall_mem_cons.mp h
    rw [List.length_cons] at hk
    obtain ⟨j, rfl⟩ : ∃ j, k = j+1 := ⟨k-1, by omega⟩
    rw [List.flatten_cons, cut_append hp, ih hps (by omega), Option.map_some]

theorem length_le_flatten {ps : List (List α)} (h : ∀ p ∈ ps, Announces size p) :
    ps.length ≤ ps.flatten.length := by
  induction ps with
  | nil => exact Nat.le_refl 0
  | cons p ps ih =>
    obtain ⟨hp, hps⟩ := List.forall_mem_cons.mp h
    have hpos := List.length_pos_iff.mpr hp.1
    have hrest := ih hps
    rw [List.length_cons, List.flatten_cons, List.length_append]
    omega

theorem pieces_flatten {ps : List (List α)} (h : ∀ p ∈ ps, Announces size p) :
    pieces size ps.flatten = some ps :=
  cut_flatten h (length_le_flatten h)

end DnsPkt.SizedPieces
