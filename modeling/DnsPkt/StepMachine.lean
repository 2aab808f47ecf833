import Mathlib.Data.Nat.Basic
import Mathlib.Tactic.Ring

/-!
# Machines that take turns

A turn of a machine leads to its next state or is done with a result. A run
takes a number of turns, and a result of its own if these are not enough. What
a run ends with is found from the end: a state ends as the state it leads to.
-/

set_option autoImplicit false

namespace DnsPkt.StepMachine

inductive Turn (σ ρ : Type) where
  | next (state : σ)
  | done (result : ρ)
  deriving DecidableEq, Repr

variable {σ ρ : Type} (step : σ → Turn σ ρ) (out : ρ)

def run : ℕ → σ → ρ
  | 0, _ => out
  | k+1, s => match step s with
    | .next t => run k t
    | .done r => r

def Leads (n : ℕ) (s t : σ) : Prop := ∀ k, run step out (k+n) s = run step out k t

/-- From a number of turns on, the run of a state has a result. -/
def Ends (n : ℕ) (s : σ) (r : ρ) : Prop := ∀ k, n ≤ k → run step out k s = r

variable {step out} {s t : σ} {r : ρ} {m n : ℕ}

theorem leads_next (h : step s = .next t) : Leads step out 1 s t := by
  intro k
  rw [run, h]

theorem ends_done (h : step s = .done r) : Ends step out 1 s r := by
  intro k hk
  obtain ⟨j, rfl⟩ : ∃ j, k = j+1 := ⟨k-1, by omega⟩
  rw [run, h]

theorem Ends.more (h : Ends step out m s r) (hle : m ≤ n) : Ends step out n s r :=
  fun k hk => h k (Nat.le_trans hle hk)

theorem Leads.trans {u : σ} (h : Leads step out m s t) (g : Leads step out n t u) :
    Leads step out (n+m) s u := by
  intro k
  rw [← Nat.add_assoc, h, g]

theorem Leads.ends (h : Leads step out m s t) (g : Ends step out n t r) :
    Ends step out (n+m) s r := by
  intro k hk
  obtain ⟨j, rfl⟩ : ∃ j, k = j+m := ⟨k-m, by omega⟩
  rw [h, g j (by omega)]

/-- Turns that are counted down are enough turns. -/
theorem run_enough {μ : σ → ℕ} (hμ : ∀ s t, step s = .next t → μ t < μ s) (hm : μ s < m)
    (hn : μ s < n) : run step out m s = run step out n s := by
  induction m generalizing n s with
  | zero => omega
  | succ m ih =>
    obtain ⟨n, rfl⟩ : ∃ j, n = j+1 := ⟨n-1, by omega⟩
    rw [run, run]
    cases hstep : step s with
    | done r => rfl
    | next t =>
      have hlt := hμ s t hstep
      exact ih (by omega) (by omega)

/-- A result that is reached at all is reached when the turns are counted down. -/
theorem Ends.enough {μ : σ → ℕ} (hμ : ∀ s t, step s = .next t → μ t < μ s)
    (h : Ends step out m s r) (hs : μ s < n) : run step out n s = r := by
  rw [run_enough hμ hs (show μ s < n+m by omega)]
  exact h (n+m) (by omega)

/-- What every turn keeps and every end has is had by the result of a run. -/
theorem run_keeps {Inv : σ → Prop} {P : ρ → Prop}
    (hkeep : ∀ s t, Inv s → step s = .next t → Inv t)
    (hdone : ∀ s r, Inv s → step s = .done r → P r) (hout : P out) (hs : Inv s) :
    P (run step out n s) := by
  induction n generalizing s with
  | zero => exact hout
  | succ n ih =>
    rw [run]
    cases hnext : step s with
    | done r => exact hdone s r hs hnext
    | next t => exact ih (hkeep s t hs hnext)

def Turn.map {σ' ρ' : Type} (f : σ → σ') (g : ρ → ρ') : Turn σ ρ → Turn σ' ρ'
  | .next t => .next (f t)
  | .done r => .done (g r)

/-- A machine whose turns are those of another does what the other does. -/
theorem run_lift {σ' ρ' : Type} {step' : σ' → Turn σ' ρ'} {o : ρ} {o' : ρ'} {f : σ → σ'}
    {g : ρ → ρ'}
    {Inv : σ → Prop} {μ : σ → ℕ} (hμ : ∀ s t, step s = .next t → μ t < μ s)
    (hkeep : ∀ s t, Inv s → step s = .next t → Inv t)
    (hstep : ∀ s, Inv s → step' (f s) = (step s).map f g)
    (hs : Inv s) (hn : μ s < n) : run step' o' n (f s) = g (run step o n s) := by
  induction n generalizing s with
  | zero => omega
  | succ n ih =>
    rw [run, run, hstep s hs]
    cases hnext : step s with
    | done r => rfl
    | next t =>
      have hlt := hμ s t hnext
      exact ih (hkeep s t hs hnext) (by omega)

/-- Machines that go from related states to related states, and end alike, have the same
runs. -/
theorem run_related {σ' : Type} {step' : σ' → Turn σ' ρ} {R : σ → σ' → Prop}
    (hnext : ∀ s u t, R s u → step s = .next t → ∃ v, step' u = .next v ∧ R t v)
    (hdone : ∀ s u r, R s u → step s = .done r → step' u = .done r) {u : σ'} (h : R s u) :
    run step' out n u = run step out n s := by
  induction n generalizing s u with
  | zero => rfl
  | succ n ih =>
    rw [run, run]
    cases hstep : step s with
    | done r => rw [hdone s u r h hstep]
    | next t =>
      obtain ⟨v, hv, hrel⟩ := hnext s u t h hstep
      rw [hv]
      exact ih hrel

end DnsPkt.StepMachine
