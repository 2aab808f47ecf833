import Mathlib.Data.List.Basic
import Mathlib.Data.Nat.ModEq
import Mathlib.Logic.Function.Basic

/-!
# Rings whose slots are handed over

Two parties go round the same `n` slots. The producer puts a value into its
slot if that one is empty, and the consumer empties its slot if there is a
value. Neither sees how far the other has come, what a slot holds is all that
they tell each other. The consumer gets the values in the order in which they
were put, each of them once.
-/

set_option autoImplicit false

namespace DnsPkt.HandoverRing

structure SlotRing (α : Type) where
  slots : ℕ → Option α
  head : ℕ
  tail : ℕ

variable {α : Type}

def fresh : SlotRing α := ⟨fun _ => none, 0, 0⟩

def put (n : ℕ) (a : α) (r : SlotRing α) : SlotRing α :=
  { r with slots := Function.update r.slots r.head (some a), head := (r.head+1) % n }

def take (n : ℕ) (r : SlotRing α) : SlotRing α :=
  { r with slots := Function.update r.slots r.tail none, tail := (r.tail+1) % n }

section Slots

variable {n j : ℕ} {a : α} {r : SlotRing α}

@[simp] theorem put_head : (put n a r).slots r.head = some a := Function.update_self ..

theorem put_other (h : j ≠ r.head) : (put n a r).slots j = r.slots j := Function.update_of_ne h ..

@[simp] theorem take_tail : (take n r).slots r.tail = none := Function.update_self ..

theorem take_other (h : j ≠ r.tail) : (take n r).slots j = r.slots j := Function.update_of_ne h ..

end Slots

/-- The runs of both parties, with the values that were put and that were taken. -/
inductive Run (n : ℕ) : SlotRing α → List α → List α → Prop
  | fresh : Run n fresh [] []
  | put {r : SlotRing α} {ps ts : List α} (a : α) (h : Run n r ps ts)
      (empty : r.slots r.head = none) : Run n (put n a r) (ps ++ [a]) ts
  | take {r : SlotRing α} {ps ts : List α} {a : α} (h : Run n r ps ts)
      (full : r.slots r.tail = some a) : Run n (take n r) ps (ts ++ [a])

structure Queue (n : ℕ) (r : SlotRing α) (q : List α) : Prop where
  tail : r.tail < n
  head : r.head = (r.tail+q.length) % n
  fits : q.length ≤ n
  slots : ∀ k < n, r.slots ((r.tail+k) % n) = q[k]?

section Queue

variable {n : ℕ} {r : SlotRing α} {q : List α} {a : α}

theorem queue_fresh (hn : 0 < n) : Queue n (fresh : SlotRing α) [] where
  tail := hn
  head := (Nat.zero_mod n).symm
  fits := Nat.zero_le n
  slots _ _ := rfl

theorem Queue.head_lt (h : Queue n r q) : r.head < n := by
  rw [h.head]
  exact Nat.mod_lt _ (Nat.zero_lt_of_lt h.tail)

/-- What the consumer finds is the first of the queue. -/
theorem Queue.at_tail (h : Queue n r q) : r.slots r.tail = q.head? := by
  have hslot := h.slots 0 (Nat.zero_lt_of_lt h.tail)
  rwa [Nat.add_zero, Nat.mod_eq_of_lt h.tail, ← List.head?_eq_getElem?] at hslot

/-- The producer finds room exactly if the queue does not fill the slots. -/
theorem Queue.room_iff (h : Queue n r q) : r.slots r.head = none ↔ q.length < n := by
  constructor
  · intro hempty
    by_contra hfull
    have hlen : q.length = n := Nat.le_antisymm h.fits (Nat.not_lt.mp hfull)
    have hsame : r.head = r.tail := by
      rw [h.head, hlen, Nat.add_mod_right, Nat.mod_eq_of_lt h.tail]
    rw [hsame, h.at_tail, List.head?_eq_none_iff] at hempty
    have htail := h.tail
    rw [hempty, List.length_nil] at hlen
    omega
  · intro hroom
    rw [h.head, h.slots _ hroom, List.getElem?_eq_none (Nat.le_refl _)]

/-- Two slots within one round are different. -/
theorem slot_ne {i j k : ℕ} (hj : j < n) (hk : k < n) (hne : j ≠ k) :
    (i+j) % n ≠ (i+k) % n := by
  intro h
  have hmod : j % n = k % n := Nat.ModEq.add_left_cancel' i h
  rw [Nat.mod_eq_of_lt hj, Nat.mod_eq_of_lt hk] at hmod
  exact hne hmod

theorem Queue.put (h : Queue n r q) (hempty : r.slots r.head = none) (a : α) :
    Queue n (put n a r) (q ++ [a]) where
  tail := h.tail
  head := by
    change (r.head+1) % n = _
    rw [h.head, Nat.mod_add_mod, List.length_append, List.length_singleton, Nat.add_assoc]
    rfl
  fits := by
    rw [List.length_append, List.length_singleton]
    exact h.room_iff.mp hempty
  slots k hk := by
    have hroom := h.room_iff.mp hempty
    change (HandoverRing.put n a r).slots ((r.tail+k) % n) = _
    by_cases hlast : k = q.length
    · rw [hlast, ← h.head, put_head, List.getElem?_concat_length]
    · have hne := slot_ne (i := r.tail) hk hroom hlast
      rw [← h.head] at hne
      rw [put_other hne, h.slots k hk]
      by_cases hin : k < q.length
      · rw [List.getElem?_append_left hin]
      · rw [List.getElem?_eq_none (by omega), List.getElem?_eq_none]
        rw [List.length_append, List.length_singleton]
        omega

theorem Queue.take (h : Queue n r (a :: q)) : Queue n (take n r) q where
  tail := Nat.mod_lt _ (Nat.zero_lt_of_lt h.tail)
  head := by
    change r.head = ((r.tail+1) % n+q.length) % n
    rw [h.head, Nat.mod_add_mod, List.length_cons]
    congr 1
    omega
  fits := Nat.le_of_succ_le h.fits
  slots k hk := by
    have hfits := h.fits
    have hn := Nat.zero_lt_of_lt hk
    change (HandoverRing.take n r).slots (((r.tail+1) % n+k) % n) = _
    rw [Nat.mod_add_mod, Nat.add_assoc, Nat.add_comm 1 k]
    rw [List.length_cons] at hfits
    by_cases hwrap : k+1 = n
    · rw [hwrap, Nat.add_mod_right, Nat.mod_eq_of_lt h.tail, take_tail,
        List.getElem?_eq_none (by omega)]
    · have hne := slot_ne (i := r.tail) (show k+1 < n by omega) hn (Nat.succ_ne_zero k)
      rw [Nat.add_zero r.tail, Nat.mod_eq_of_lt h.tail] at hne
      rw [take_other hne, h.slots _ (by omega), List.getElem?_cons_succ]

/-- A ring whose queue is empty has no value in any slot. -/
theorem Queue.none_left (h : Queue n r []) {j : ℕ} (hj : j < n) : r.slots j = none := by
  have htail := h.tail
  by_cases hle : r.tail ≤ j
  · have hslot := h.slots (j-r.tail) (by omega)
    rwa [Nat.add_sub_cancel' hle, Nat.mod_eq_of_lt hj] at hslot
  · have hround : r.tail+(j+n-r.tail) = j+n := by omega
    have hslot := h.slots (j+n-r.tail) (by omega)
    rwa [hround, Nat.add_mod_right, Nat.mod_eq_of_lt hj] at hslot

/-- What was put and not taken yet is the queue. -/
theorem Run.queue {ps ts : List α} (h : Run n r ps ts) (hn : 0 < n) :
    ∃ q, Queue n r q ∧ ps = ts ++ q := by
  induction h with
  | fresh => exact ⟨[], queue_fresh hn, rfl⟩
  | put a _ hempty ih =>
    obtain ⟨q, hq, hps⟩ := ih
    exact ⟨q ++ [a], hq.put hempty a, by rw [hps, List.append_assoc]⟩
  | take _ hfull ih =>
    obtain ⟨q, hq, hps⟩ := ih
    rw [hq.at_tail] at hfull
    obtain ⟨q', rfl⟩ := List.head?_eq_some_iff.mp hfull
    exact ⟨q', hq.take, by rw [hps, List.append_assoc]; rfl⟩

end Queue

end DnsPkt.HandoverRing
