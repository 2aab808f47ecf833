import DnsPkt.CheckedRun

/-!
# Pairs of runs

Two runs of one program start from two states. They are paired when they end
the same way: both fall through with one value, both leave with one code, or
both meet one fault. The states they leave are related again, by one relation
where the runs fall through and by another where they leave early.
-/

set_option autoImplicit false

namespace DnsPkt.PairedRun
open DnsPkt.CheckedRun DnsPkt.CheckedRun.Run

variable {σ ε φ α β ρ : Type}

inductive Paired (Q : α → σ → σ → Prop) (E : σ → σ → Prop) :
    Outcome σ ε φ α → Outcome σ ε φ α → Prop
  | ok {a : α} {s t : σ} (h : Q a s t) : Paired Q E (.ok a s) (.ok a t)
  | exit {e : ε} {s t : σ} (h : E s t) : Paired Q E (.exit e s) (.exit e t)
  | fault (c : φ) : Paired Q E (.fault c) (.fault c)

variable {P Q : α → σ → σ → Prop} {R : β → σ → σ → Prop} {E F : σ → σ → Prop}
  {x y : Run σ ε φ α} {f g : α → Run σ ε φ β} {s t : σ}

theorem Paired.imp {o o' : Outcome σ ε φ α} (h : Paired P E o o')
    (hQ : ∀ a s t, P a s t → Q a s t) (hE : ∀ s t, E s t → F s t) : Paired Q F o o' := by
  cases h with
  | ok h => exact .ok (hQ _ _ _ h)
  | exit h => exact .exit (hE _ _ h)
  | fault c => exact .fault c

theorem Paired.bind (hx : Paired Q E (x s) (y t))
    (hf : ∀ a s' t', Q a s' t' → Paired R E (f a s') (g a t')) :
    Paired R E ((x >>= f) s) ((y >>= g) t) := by
  generalize hs : x s = o at hx
  generalize ht : y t = o' at hx
  cases hx with
  | ok h =>
    rw [bind_of_ok hs, bind_of_ok ht]
    exact hf _ _ _ h
  | exit h =>
    rw [bind_of_exit hs, bind_of_exit ht]
    exact .exit h
  | fault c =>
    rw [bind_of_fault hs, bind_of_fault ht]
    exact .fault c

/-- The continuation may use how the two runs got there. -/
theorem Paired.and_run (hx : Paired Q E (x s) (y t)) :
    Paired (fun a s' t' => Q a s' t' ∧ x s = .ok a s' ∧ y t = .ok a t') E (x s) (y t) := by
  generalize hs : x s = o at hx
  generalize ht : y t = o' at hx
  cases hx with
  | ok h => exact .ok ⟨h, rfl, rfl⟩
  | exit h => exact .exit h
  | fault c => exact .fault c

theorem paired_modify {Q : Unit → σ → σ → Prop} {p q : σ → σ} (h : Q () (p s) (q t)) :
    Paired Q E ((modify p : Run σ ε φ Unit) s) ((modify q : Run σ ε φ Unit) t) := .ok h

theorem paired_get_bind {k k' : σ → Run σ ε φ β} (h : Paired R E (k s s) (k' t t)) :
    Paired R E ((get >>= k) s) ((get >>= k') t) := h

theorem paired_when {Q : Unit → σ → σ → Prop} {p q : Prop} [Decidable p] [Decidable q]
    (hpq : p ↔ q) {x y : Run σ ε φ Unit} (hx : p → Paired Q E (x s) (y t))
    (hskip : ¬ p → Q () s t) : Paired Q E (when p x s) (when q y t) := by
  by_cases h : p
  · rw [when_pos h, when_pos (hpq.mp h)]
    exact hx h
  · rw [when_neg h, when_neg (mt hpq.mpr h)]
    exact .ok (hskip h)

/-- A call returns in both runs, whichever way the callee ends. -/
theorem paired_call {P : ρ → σ → σ → Prop} {x y : Run σ ρ φ ρ}
    (hx : Paired P F (x s) (y t)) (hP : ∀ r s t, P r s t → F s t) :
    Paired (fun _ => F) E ((call x : Run σ ε φ ρ) s) ((call y : Run σ ε φ ρ) t) := by
  unfold call
  generalize x s = o at hx
  generalize y t = o' at hx
  cases hx with
  | ok h => exact .ok (hP _ _ _ h)
  | exit h => exact .ok h
  | fault c => exact .fault c

/-- A loop whose rounds are paired in the states that meet a condition. -/
theorem paired_loop {body : ℕ → Run σ ε φ Unit} {C : σ → Prop} {I : σ → σ → Prop}
    (step : ∀ i s t, I s t → C s → C t → Paired (fun _ => I) E (body i s) (body i t))
    (i n : ℕ) (h : I s t) (hs : ∀ v ∈ visits body i n s, C v.2)
    (ht : ∀ v ∈ visits body i n t, C v.2) :
    Paired (fun _ => I) E (loop body i n s) (loop body i n t) := by
  induction n generalizing i s t with
  | zero => exact .ok h
  | succ n ih =>
    have hstep := step i s t h (hs (i, s) (by simp [visits])) (ht (i, t) (by simp [visits]))
    refine hstep.and_run.bind fun u s' t' hu => ?_
    obtain ⟨hI, hbs, hbt⟩ := hu
    rw [visits_succ_of_ok hbs] at hs
    rw [visits_succ_of_ok hbt] at ht
    exact ih (i+1) hI (fun v hv => hs v (by simp [hv])) fun v hv => ht v (by simp [hv])

/-! Programs that take related states to related states, from `I` to `J`. Where they leave
early the states are related by `E`. -/

structure Steps (E I J : σ → σ → Prop) (x : Run σ ε φ α) : Prop where
  run : ∀ {s t : σ}, I s t → Paired (fun _ => J) E (x s) (x t)

section Steps

variable {I J K : σ → σ → Prop}

theorem steps_pure (a : α) : Steps E I I (pure a : Run σ ε φ α) := ⟨fun h => .ok h⟩

theorem steps_exit (h : ∀ s t, I s t → E s t) (e : ε) : Steps E I J (exit e : Run σ ε φ α) :=
  ⟨fun hI => .exit (h _ _ hI)⟩

theorem steps_modify {p : σ → σ} (h : ∀ s t, I s t → J (p s) (p t)) :
    Steps E I J (modify p : Run σ ε φ Unit) := ⟨fun hI => .ok (h _ _ hI)⟩

theorem Steps.bind (hx : Steps E I J x) (hf : ∀ a, Steps E J K (f a)) :
    Steps E I K (x >>= f) := ⟨fun hI => (hx.run hI).bind fun a _ _ hJ => (hf a).run hJ⟩

theorem Steps.imp (hx : Steps E I J x) (h : ∀ s t, J s t → K s t) : Steps E I K x :=
  ⟨fun hI => (hx.run hI).imp (fun _ s t => h s t) fun _ _ h => h⟩

theorem steps_when (p : Prop) [Decidable p] {x : Run σ ε φ Unit} (hx : p → Steps E I I x) :
    Steps E I I (when p x) :=
  ⟨fun hI => paired_when Iff.rfl (fun h => (hx h).run hI) fun _ => hI⟩

theorem steps_call {x : Run σ ρ φ ρ} (hx : Steps J I J x) :
    Steps E I J (call x : Run σ ε φ ρ) := ⟨fun hI => paired_call (hx.run hI) fun _ _ _ h => h⟩

end Steps

end DnsPkt.PairedRun
