import Mathlib.Data.Nat.Basic
import Mathlib.Tactic.Ring

/-!
# Longest runs

Runs of positions with a property among the first `n`, and the leftmost of the
longest ones. A scan from the left keeps a longest run and the run that ends
where the scan stands.
-/

set_option autoImplicit false

namespace DnsPkt.LongestRun

variable (p : ℕ → Prop)

def Run (n i l : ℕ) : Prop := i+l ≤ n ∧ ∀ j, j < l → p (i+j)

/-- The leftmost of the longest runs; of no length if no position has the property. -/
structure Longest (n i l : ℕ) : Prop where
  run : Run p n i l
  longest : ∀ i' l', Run p n i' l' → l' ≤ l
  leftmost : ∀ i', 0 < l → Run p n i' l → i ≤ i'

/-- The length of the run that ends at `n`. -/
structure Trailing (n c : ℕ) : Prop where
  run : Run p n (n-c) c
  longest : ∀ i l, Run p n i l → i+l = n → l ≤ c

variable {p} {n i l c : ℕ}

theorem Run.prefix (h : Run p n i l) {k : ℕ} (hk : k ≤ l) : Run p n i k :=
  ⟨by have := h.1; omega, fun j hj => h.2 j (by omega)⟩

theorem Run.mono (h : Run p n i l) {m : ℕ} (hm : n ≤ m) : Run p m i l :=
  ⟨by have := h.1; omega, h.2⟩

theorem Run.within (h : Run p (n+1) i l) (hne : i+l ≠ n+1) : Run p n i l :=
  ⟨by have := h.1; omega, h.2⟩

theorem longest_zero : Longest p 0 0 0 where
  run := ⟨by omega, fun j hj => by omega⟩
  longest i' l' h := by
    have := h.1
    omega
  leftmost i' h _ := by omega

theorem trailing_zero : Trailing p 0 0 where
  run := ⟨by omega, fun j hj => by omega⟩
  longest i l h _ := by
    have := h.1
    omega

theorem Trailing.le (h : Trailing p n c) : c ≤ n := by
  have := h.run.1
  omega

theorem Trailing.extend (h : Trailing p n c) (hp : p n) : Trailing p (n+1) (c+1) where
  run := by
    have hc := h.le
    refine ⟨by omega, fun j hj => ?_⟩
    by_cases hlt : j < c
    · have := h.run.2 j hlt
      rwa [show n+1-(c+1) = n-c by omega]
    · rwa [show n+1-(c+1)+j = n by omega]
  longest i l hr he := by
    cases l with
    | zero => omega
    | succ l =>
      have : Run p n i l := ⟨by omega, fun j hj => hr.2 j (by omega)⟩
      have := h.longest i l this (by omega)
      omega

theorem Run.stops (h : Run p (n+1) i l) (hp : ¬ p n) (hl : 0 < l) : i+l ≠ n+1 := by
  intro he
  have := h.2 (l-1) (by omega)
  rw [show i+(l-1) = n by omega] at this
  exact hp this

theorem trailing_stop (hp : ¬ p n) : Trailing p (n+1) 0 where
  run := ⟨by omega, fun j hj => by omega⟩
  longest i l hr he := by
    by_contra hl
    exact hr.stops hp (by omega) he

theorem Longest.stop (h : Longest p n i l) (hp : ¬ p n) : Longest p (n+1) i l where
  run := h.run.mono (by omega)
  longest i' l' hr := by
    by_cases hl : 0 < l'
    · exact h.longest i' l' (hr.within (hr.stops hp hl))
    · omega
  leftmost i' hl hr := h.leftmost i' hl (hr.within (hr.stops hp hl))

theorem Longest.keep (h : Longest p n i l) (ht : Trailing p (n+1) c) (hc : c ≤ l) :
    Longest p (n+1) i l where
  run := h.run.mono (by omega)
  longest i' l' hr := by
    by_cases he : i'+l' = n+1
    · have := ht.longest i' l' hr he
      omega
    · exact h.longest i' l' (hr.within he)
  leftmost i' hl hr := by
    by_cases he : i'+l = n+1
    · have := h.run.1
      omega
    · exact h.leftmost i' hl (hr.within he)

theorem Longest.renew (h : Longest p n i l) (ht : Trailing p (n+1) c) (hc : l < c) :
    Longest p (n+1) (n+1-c) c where
  run := ht.run
  longest i' l' hr := by
    by_cases he : i'+l' = n+1
    · exact ht.longest i' l' hr he
    · have := h.longest i' l' (hr.within he)
      omega
  leftmost i' hl hr := by
    by_cases he : i'+c = n+1
    · omega
    · have := h.longest i' c (hr.within he)
      omega

theorem Longest.unique (h : Longest p n i l) {i' l' : ℕ} (h' : Longest p n i' l') (hl : 0 < l) :
    i' = i ∧ l' = l := by
  have he : l' = l := Nat.le_antisymm (h.longest _ _ h'.run) (h'.longest _ _ h.run)
  subst he
  exact ⟨Nat.le_antisymm (h'.leftmost _ hl h.run) (h.leftmost _ hl h'.run), rfl⟩

/-- A run of some length exists exactly when a longest one has it. -/
theorem Longest.exists_iff (h : Longest p n i l) (k : ℕ) : (∃ j, Run p n j k) ↔ k ≤ l :=
  ⟨fun ⟨j, hj⟩ => h.longest j k hj, fun hk => ⟨i, h.run.prefix hk⟩⟩

end DnsPkt.LongestRun
