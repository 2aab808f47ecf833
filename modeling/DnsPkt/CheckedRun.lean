import Mathlib.Data.List.Basic
import Mathlib.Tactic.Ring

/-!
# Checked runs of imperative code

A run reads and writes an explicit state. It falls through with a value,
leaves the enclosing function early with a code, or meets an access whose
effect the source language leaves undefined. The state at an early exit is
kept, because callers continue from it. A fault has no state: nothing that
follows it is defined.
-/

set_option autoImplicit false

namespace DnsPkt.CheckedRun

inductive Outcome (σ ε φ α : Type) where
  | ok (value : α) (state : σ)
  | exit (code : ε) (state : σ)
  | fault (cause : φ)
  deriving DecidableEq, Repr

def Outcome.result {σ ε φ α : Type} : Outcome σ ε φ α → Option (α × σ)
  | .ok a s => some (a, s)
  | _ => none

def Outcome.cause {σ ε φ α : Type} : Outcome σ ε φ α → Option φ
  | .fault c => some c
  | _ => none

theorem Outcome.eq_fault {σ ε φ α : Type} {o : Outcome σ ε φ α} {c : φ}
    (h : o.cause = some c) : o = .fault c := by
  cases o <;> simp_all [cause]

theorem Outcome.eq_ok {σ ε φ α β : Type} {o : Outcome σ ε φ α} {f : α × σ → β} {b : β}
    (h : o.result.map f = some b) : ∃ a s, o = .ok a s ∧ f (a, s) = b := by
  cases o with
  | ok a s => exact ⟨a, s, rfl, by simpa [result] using h⟩
  | exit e s => simp [result] at h
  | fault c => simp [result] at h

def Run (σ ε φ α : Type) : Type := σ → Outcome σ ε φ α

namespace Run

variable {σ ε φ α β ρ : Type}

instance : Monad (Run σ ε φ) where
  pure a := fun s => .ok a s
  bind x f := fun s => match x s with
    | .ok a t => f a t
    | .exit e t => .exit e t
    | .fault c => .fault c

instance : LawfulMonad (Run σ ε φ) := by
  refine LawfulMonad.mk' _ ?_ ?_ ?_
  · intro α x
    funext s
    change (x >>= fun a => pure a) s = x s
    simp only [bind]
    cases x s <;> rfl
  · intros
    rfl
  · intro α β γ x f g
    funext s
    simp only [bind]
    cases x s <;> rfl

def get : Run σ ε φ σ := fun s => .ok s s

def modify (f : σ → σ) : Run σ ε φ Unit := fun s => .ok () (f s)

def exit (e : ε) : Run σ ε φ α := fun s => .exit e s

def fault (c : φ) : Run σ ε φ α := fun _ => .fault c

def when (p : Prop) [Decidable p] (x : Run σ ε φ Unit) : Run σ ε φ Unit :=
  if p then x else pure ()

/-- A function call: an early exit of the callee is its return value. -/
def call (x : Run σ ρ φ ρ) : Run σ ε φ ρ := fun s =>
  match x s with
  | .ok r t => .ok r t
  | .exit r t => .ok r t
  | .fault c => .fault c

@[simp] theorem pure_run (a : α) (s : σ) : (pure a : Run σ ε φ α) s = .ok a s := rfl

@[simp] theorem get_run (s : σ) : (get : Run σ ε φ σ) s = .ok s s := rfl

@[simp] theorem modify_run (f : σ → σ) (s : σ) :
    (modify f : Run σ ε φ Unit) s = .ok () (f s) := rfl

@[simp] theorem exit_run (e : ε) (s : σ) : (exit e : Run σ ε φ α) s = .exit e s := rfl

@[simp] theorem fault_run (c : φ) (s : σ) : (fault c : Run σ ε φ α) s = .fault c := rfl

theorem bind_of_ok {x : Run σ ε φ α} {s t : σ} {a : α} (h : x s = .ok a t)
    (f : α → Run σ ε φ β) : (x >>= f) s = f a t := by
  simp only [bind, h]

theorem bind_of_exit {x : Run σ ε φ α} {s t : σ} {e : ε} (h : x s = .exit e t)
    (f : α → Run σ ε φ β) : (x >>= f) s = .exit e t := by
  simp only [bind, h]

theorem bind_of_fault {x : Run σ ε φ α} {s : σ} {c : φ} (h : x s = .fault c)
    (f : α → Run σ ε φ β) : (x >>= f) s = .fault c := by
  simp only [bind, h]

theorem bind_ok (x : Run σ ε φ α) (f : α → Run σ ε φ β) (s u : σ) (b : β) :
    (x >>= f) s = .ok b u ↔ ∃ a t, x s = .ok a t ∧ f a t = .ok b u := by
  cases h : x s with
  | ok a t => simp [bind_of_ok h]
  | exit e t => simp [bind_of_exit h]
  | fault c => simp [bind_of_fault h]

theorem bind_exit (x : Run σ ε φ α) (f : α → Run σ ε φ β) (s u : σ) (e : ε) :
    (x >>= f) s = .exit e u ↔
      x s = .exit e u ∨ ∃ a t, x s = .ok a t ∧ f a t = .exit e u := by
  cases h : x s with
  | ok a t => simp [bind_of_ok h]
  | exit e t => simp [bind_of_exit h]
  | fault c => simp [bind_of_fault h]

theorem bind_fault (x : Run σ ε φ α) (f : α → Run σ ε φ β) (s : σ) (c : φ) :
    (x >>= f) s = .fault c ↔
      x s = .fault c ∨ ∃ a t, x s = .ok a t ∧ f a t = .fault c := by
  cases h : x s with
  | ok a t => simp [bind_of_ok h]
  | exit e t => simp [bind_of_exit h]
  | fault c => simp [bind_of_fault h]

theorem when_pos {p : Prop} [Decidable p] (h : p) (x : Run σ ε φ Unit) : when p x = x :=
  if_pos h

theorem when_neg {p : Prop} [Decidable p] (h : ¬ p) (x : Run σ ε φ Unit) :
    when p x = pure () := if_neg h

theorem bind_when_neg {p : Prop} [Decidable p] (h : ¬ p) (x : Run σ ε φ Unit)
    (f : Unit → Run σ ε φ α) (s : σ) : (when p x >>= f) s = f () s := by
  rw [when_neg h]
  rfl

theorem bind_when_pos {p : Prop} [Decidable p] (h : p) (x : Run σ ε φ Unit)
    (f : Unit → Run σ ε φ α) (s : σ) : (when p x >>= f) s = (x >>= f) s := by
  rw [when_pos h]

@[simp] theorem when_true (x : Run σ ε φ Unit) : when True x = x := if_pos trivial

@[simp] theorem when_false (x : Run σ ε φ Unit) : when False x = pure () := if_neg not_false

theorem call_ok (x : Run σ ρ φ ρ) (s t : σ) (r : ρ) :
    (call x : Run σ ε φ ρ) s = .ok r t ↔ x s = .ok r t ∨ x s = .exit r t := by
  cases h : x s <;> simp [call, h]

theorem call_fault (x : Run σ ρ φ ρ) (s : σ) (c : φ) :
    (call x : Run σ ε φ ρ) s = .fault c ↔ x s = .fault c := by
  cases h : x s <;> simp [call, h]

theorem call_ne_exit (x : Run σ ρ φ ρ) (s t : σ) (e : ε) :
    (call x : Run σ ε φ ρ) s ≠ .exit e t := by
  cases h : x s <;> simp [call, h]

def loop (body : ℕ → Run σ ε φ Unit) : ℕ → ℕ → Run σ ε φ Unit
  | _, 0 => pure ()
  | i, n+1 => body i >>= fun _ => loop body (i+1) n

def visits (body : ℕ → Run σ ε φ Unit) : ℕ → ℕ → σ → List (ℕ × σ)
  | _, 0, _ => []
  | i, n+1, s => (i, s) :: match body i s with
    | .ok _ t => visits body (i+1) n t
    | _ => []

theorem loop_succ_of_ok {body : ℕ → Run σ ε φ Unit} {i : ℕ} {s t : σ} {u : Unit}
    (h : body i s = .ok u t) (n : ℕ) : loop body i (n+1) s = loop body (i+1) n t :=
  bind_of_ok h _

theorem visits_succ_of_ok {body : ℕ → Run σ ε φ Unit} {i : ℕ} {s t : σ} {u : Unit}
    (h : body i s = .ok u t) (n : ℕ) :
    visits body i (n+1) s = (i, s) :: visits body (i+1) n t := by
  simp only [visits, h]

theorem loop_fault (body : ℕ → Run σ ε φ Unit) (i n : ℕ) (s : σ) (c : φ) :
    loop body i n s = .fault c ↔ ∃ v ∈ visits body i n s, body v.1 v.2 = .fault c := by
  induction n generalizing i s with
  | zero => simp [loop, visits]
  | succ n ih =>
    rw [loop, bind_fault]
    cases hb : body i s with
    | ok u t => simp [visits, hb, ih]
    | exit e t => simp [visits, hb]
    | fault d => simp [visits, hb]

def Avoids (P : φ → Prop) (x : Run σ ε φ α) (s : σ) : Prop := ∀ c, x s = .fault c → ¬ P c

section Avoids

variable {P : φ → Prop}

theorem avoids_of_ok {x : Run σ ε φ α} {s t : σ} {a : α} (h : x s = .ok a t) : Avoids P x s := by
  intro c hc
  rw [h] at hc
  cases hc

theorem avoids_of_exit {x : Run σ ε φ α} {s t : σ} {e : ε} (h : x s = .exit e t) :
    Avoids P x s := by
  intro c hc
  rw [h] at hc
  cases hc

theorem avoids_of_fault {x : Run σ ε φ α} {s : σ} {c : φ} (h : x s = .fault c) :
    Avoids P x s ↔ ¬ P c := by
  simp [Avoids, h]

@[simp] theorem avoids_pure (a : α) (s : σ) : Avoids P (pure a : Run σ ε φ α) s :=
  avoids_of_ok rfl

@[simp] theorem avoids_get (s : σ) : Avoids P (get : Run σ ε φ σ) s := avoids_of_ok rfl

@[simp] theorem avoids_modify (f : σ → σ) (s : σ) :
    Avoids P (modify f : Run σ ε φ Unit) s := avoids_of_ok rfl

@[simp] theorem avoids_exit (e : ε) (s : σ) : Avoids P (exit e : Run σ ε φ α) s :=
  avoids_of_exit rfl

theorem avoids_bind (x : Run σ ε φ α) (f : α → Run σ ε φ β) (s : σ) :
    Avoids P (x >>= f) s ↔ Avoids P x s ∧ ∀ a t, x s = .ok a t → Avoids P (f a) t := by
  cases h : x s with
  | ok a t => simp [Avoids, bind_of_ok h, h]
  | exit e t => simp [Avoids, bind_of_exit h, h]
  | fault c => simp [Avoids, bind_of_fault h, h]

theorem avoids_bind_of_ok {x : Run σ ε φ α} {s t : σ} {a : α} (h : x s = .ok a t)
    (f : α → Run σ ε φ β) : Avoids P (x >>= f) s ↔ Avoids P (f a) t := by
  rw [Avoids, bind_of_ok h, Avoids]

theorem avoids_seq {x : Run σ ε φ α} {f : α → Run σ ε φ β} {s : σ} (hx : Avoids P x s)
    (hf : ∀ a t, x s = .ok a t → Avoids P (f a) t) : Avoids P (x >>= f) s :=
  (avoids_bind x f s).mpr ⟨hx, hf⟩

theorem avoids_when (p : Prop) [Decidable p] (x : Run σ ε φ Unit) (s : σ) :
    Avoids P (when p x) s ↔ (p → Avoids P x s) := by
  by_cases h : p
  · simp [when_pos h, h]
  · simp [when_neg h, h]

theorem avoids_call (x : Run σ ρ φ ρ) (s : σ) :
    Avoids P (call x : Run σ ε φ ρ) s ↔ Avoids P x s := by
  simp only [Avoids, call_fault]

theorem avoids_loop (body : ℕ → Run σ ε φ Unit) (i n : ℕ) (s : σ) :
    Avoids P (loop body i n) s ↔ ∀ v ∈ visits body i n s, Avoids P (body v.1) v.2 := by
  constructor
  · intro h v hv c hc
    exact h c ((loop_fault body i n s c).mpr ⟨v, hv, hc⟩)
  · intro h c hc
    obtain ⟨v, hv, hf⟩ := (loop_fault body i n s c).mp hc
    exact h v hv c hf

end Avoids

/-! What a run leaves alone. A frame relates the state before to the state
where the run falls through, and to the state and the code where it leaves.
It also names the faults that are possible. -/

structure Frame (σ ε φ : Type) where
  keep : σ → σ → Prop
  leave : σ → ε → σ → Prop
  raise : φ → Prop
  refl : ∀ s, keep s s
  trans : ∀ {s t u}, keep s t → keep t u → keep s u
  lift : ∀ {s t e u}, keep s t → leave t e u → leave s e u

structure Keeps (F : Frame σ ε φ) (x : Run σ ε φ α) : Prop where
  ok : ∀ {s a t}, x s = .ok a t → F.keep s t
  exit : ∀ {s e t}, x s = .exit e t → F.leave s e t
  fault : ∀ {s c}, x s = .fault c → F.raise c

section Keeps

variable {F : Frame σ ε φ}

/-- A run that always falls through. -/
theorem Keeps.of_ok {x : Run σ ε φ α} (h : ∀ s, ∃ a t, x s = .ok a t ∧ F.keep s t) :
    Keeps F x where
  ok {s a t} hx := by
    obtain ⟨b, u, hb, hk⟩ := h s
    rw [hb] at hx
    cases hx
    exact hk
  exit {s e t} hx := by
    obtain ⟨b, u, hb, -⟩ := h s
    rw [hb] at hx
    cases hx
  fault {s c} hx := by
    obtain ⟨b, u, hb, -⟩ := h s
    rw [hb] at hx
    cases hx

theorem Keeps.of_exit {x : Run σ ε φ α} (h : ∀ s, ∃ e t, x s = .exit e t ∧ F.leave s e t) :
    Keeps F x where
  ok {s a t} hx := by
    obtain ⟨e, u, hb, -⟩ := h s
    rw [hb] at hx
    cases hx
  exit {s e t} hx := by
    obtain ⟨e, u, hb, hl⟩ := h s
    rw [hb] at hx
    cases hx
    exact hl
  fault {s c} hx := by
    obtain ⟨e, u, hb, -⟩ := h s
    rw [hb] at hx
    cases hx

/-- A run that neither leaves nor faults falls through. -/
theorem Keeps.total {x : Run σ ε φ α} (h : Keeps F x) (s : σ) (hleave : ∀ e t, ¬ F.leave s e t)
    (hraise : ∀ c, ¬ F.raise c) : ∃ a t, x s = .ok a t ∧ F.keep s t := by
  cases hx : x s with
  | ok a t => exact ⟨a, t, rfl, h.ok hx⟩
  | exit e t => exact absurd (h.exit hx) (hleave e t)
  | fault c => exact absurd (h.fault hx) (hraise c)

theorem keeps_pure (a : α) : Keeps F (pure a : Run σ ε φ α) :=
  .of_ok fun s => ⟨a, s, rfl, F.refl s⟩

theorem keeps_get : Keeps F (get : Run σ ε φ σ) := .of_ok fun s => ⟨s, s, rfl, F.refl s⟩

theorem keeps_modify {f : σ → σ} (h : ∀ s, F.keep s (f s)) :
    Keeps F (modify f : Run σ ε φ Unit) := .of_ok fun s => ⟨(), f s, rfl, h s⟩

theorem keeps_exit {e : ε} (h : ∀ s, F.leave s e s) : Keeps F (exit e : Run σ ε φ α) :=
  .of_exit fun s => ⟨e, s, rfl, h s⟩

theorem Keeps.bind_of_result {x : Run σ ε φ α} {f : α → Run σ ε φ β} (hx : Keeps F x)
    (hf : ∀ s a t, x s = .ok a t → Keeps F (f a)) : Keeps F (x >>= f) where
  ok h := by
    obtain ⟨a, t, ha, hb⟩ := (bind_ok _ _ _ _ _).mp h
    exact F.trans (hx.ok ha) ((hf _ a t ha).ok hb)
  exit h := by
    rcases (bind_exit _ _ _ _ _).mp h with h | ⟨a, t, ha, hb⟩
    · exact hx.exit h
    · exact F.lift (hx.ok ha) ((hf _ a t ha).exit hb)
  fault h := by
    rcases (bind_fault _ _ _ _).mp h with h | ⟨a, t, ha, hb⟩
    · exact hx.fault h
    · exact (hf _ a t ha).fault hb

theorem Keeps.bind {x : Run σ ε φ α} {f : α → Run σ ε φ β} (hx : Keeps F x)
    (hf : ∀ a, Keeps F (f a)) : Keeps F (x >>= f) := hx.bind_of_result fun _ a _ _ => hf a

theorem keeps_when (p : Prop) [Decidable p] {x : Run σ ε φ Unit} (hx : p → Keeps F x) :
    Keeps F (when p x) := by
  by_cases h : p
  · rw [when_pos h]
    exact hx h
  · rw [when_neg h]
    exact keeps_pure ()

theorem keeps_call {G : Frame σ ρ φ} {x : Run σ ρ φ ρ} (hx : Keeps G x)
    (hkeep : ∀ s t, G.keep s t → F.keep s t) (hleave : ∀ s r t, G.leave s r t → F.keep s t)
    (hraise : ∀ c, G.raise c → F.raise c) : Keeps F (call x : Run σ ε φ ρ) where
  ok {s r t} h := by
    rcases (call_ok _ _ _ _).mp h with h | h
    · exact hkeep s t (hx.ok h)
    · exact hleave s r t (hx.exit h)
  exit h := absurd h (call_ne_exit _ _ _ _)
  fault h := hraise _ (hx.fault ((call_fault _ _ _).mp h))

theorem keeps_loop {body : ℕ → Run σ ε φ Unit} (hb : ∀ i, Keeps F (body i)) (i n : ℕ) :
    Keeps F (loop body i n) := by
  induction n generalizing i with
  | zero => exact keeps_pure ()
  | succ n ih => exact (hb i).bind fun _ => ih (i+1)

def Leaves (F : Frame σ ε φ) (x : Run σ ε φ α) : Prop :=
  ∀ {s e t}, x s = .exit e t → F.leave s e t

theorem Keeps.leaves_bind {x : Run σ ε φ α} {f : α → Run σ ε φ β} (hx : Keeps F x)
    (hf : ∀ a, Leaves F (f a)) : Leaves F (x >>= f) := by
  intro s e t h
  rcases (bind_exit _ _ _ _ _).mp h with h | ⟨a, m, ha, hb⟩
  · exact hx.exit h
  · exact F.lift (hx.ok ha) (hf a hb)

end Keeps

structure Ends (Q : σ → Prop) (x : Run σ ε φ α) (s : σ) : Prop where
  ok : ∀ {a t}, x s = .ok a t → Q t
  exit : ∀ {e t}, x s = .exit e t → Q t

theorem ends_bind {Q : σ → Prop} {x : Run σ ε φ α} {f : α → Run σ ε φ β} {s : σ}
    (hx : ∀ {e t}, x s = .exit e t → Q t) (hf : ∀ a t, x s = .ok a t → Ends Q (f a) t) :
    Ends Q (x >>= f) s where
  ok h := by
    obtain ⟨a, t, ha, hb⟩ := (bind_ok _ _ _ _ _).mp h
    exact (hf a t ha).ok hb
  exit h := by
    rcases (bind_exit _ _ _ _ _).mp h with h | ⟨a, t, ha, hb⟩
    · exact hx h
    · exact (hf a t ha).exit hb

theorem Ends.mono {Q R : σ → Prop} {x : Run σ ε φ α} {s : σ} (h : Ends Q x s)
    (hQ : ∀ t, Q t → R t) : Ends R x s := ⟨fun hx => hQ _ (h.ok hx), fun hx => hQ _ (h.exit hx)⟩

def Gives (Q : α → Prop) (x : Run σ ε φ α) : Prop := ∀ s a t, x s = .ok a t → Q a

theorem gives_pure {Q : α → Prop} {a : α} (h : Q a) : Gives Q (pure a : Run σ ε φ α) := by
  intro s b t hb
  cases hb
  exact h

theorem Gives.bind {R : α → Prop} {Q : β → Prop} {x : Run σ ε φ α} {f : α → Run σ ε φ β}
    (hx : Gives R x) (hf : ∀ a, R a → Gives Q (f a)) : Gives Q (x >>= f) := by
  intro s b u h
  obtain ⟨a, t, ha, hb⟩ := (bind_ok _ _ _ _ _).mp h
  exact hf a (hx s a t ha) t b u hb

theorem gives_bind {Q : β → Prop} {x : Run σ ε φ α} {f : α → Run σ ε φ β}
    (hf : ∀ a, Gives Q (f a)) : Gives Q (x >>= f) :=
  Gives.bind (R := fun _ => True) (fun _ _ _ _ => trivial) fun a _ => hf a

def Extends (x y : Run σ ε φ α) : Prop := ∀ s a t, x s = .ok a t → y s = .ok a t

theorem Extends.refl (x : Run σ ε φ α) : Extends x x := fun _ _ _ h => h

theorem Extends.bind {x y : Run σ ε φ α} {f g : α → Run σ ε φ β} (hx : Extends x y)
    (hf : ∀ a, Extends (f a) (g a)) : Extends (x >>= f) (y >>= g) := by
  intro s b u h
  obtain ⟨a, t, ha, hb⟩ := (bind_ok _ _ _ _ _).mp h
  rw [bind_of_ok (hx s a t ha)]
  exact hf a t b u hb

theorem extends_when {p q : Prop} [Decidable p] [Decidable q] (hpq : p ↔ q) {x y : Run σ ε φ Unit}
    (hx : Extends x y) : Extends (when p x) (when q y) := by
  by_cases h : p
  · rw [when_pos h, when_pos (hpq.mp h)]
    exact hx
  · rw [when_neg h, when_neg (mt hpq.mpr h)]
    exact Extends.refl _

theorem extends_ite {p : Prop} [Decidable p] {x y z w : Run σ ε φ α} (hx : Extends x y)
    (hz : Extends z w) : Extends (if p then x else z) (if p then y else w) := by
  split
  · exact hx
  · exact hz

/-! The states in which the rounds of a completed loop start follow one
another: each is the state that the round before it left. -/

def Linked {κ : Type} (step : κ → σ → Prop) (pre : κ → σ) : σ → List κ → σ → Prop
  | s, [], t => t = s
  | s, v :: vs, t => pre v = s ∧ ∃ u, step v u ∧ Linked step pre u vs t

theorem linked_append {κ : Type} {step : κ → σ → Prop} {pre : κ → σ} (s t : σ) (xs ys : List κ) :
    Linked step pre s (xs ++ ys) t ↔
      ∃ u, Linked step pre s xs u ∧ Linked step pre u ys t := by
  induction xs generalizing s with
  | nil => simp [Linked]
  | cons v vs ih =>
    simp only [List.cons_append, Linked, ih]
    constructor
    · rintro ⟨hv, m, hm, u, h1, h2⟩
      exact ⟨u, ⟨hv, m, hm, h1⟩, h2⟩
    · rintro ⟨u, ⟨hv, m, hm, h1⟩, h2⟩
      exact ⟨hv, m, hm, u, h1, h2⟩

theorem loop_linked {body : ℕ → Run σ ε φ Unit} (i n : ℕ) (s t : σ)
    (h : loop body i n s = .ok () t) :
    Linked (fun v u => body v.1 v.2 = .ok () u) Prod.snd s (visits body i n s) t := by
  induction n generalizing i s with
  | zero =>
    cases h
    rfl
  | succ n ih =>
    obtain ⟨_, m, hm, hr⟩ := (bind_ok _ _ _ _ _).mp h
    rw [visits_succ_of_ok hm]
    exact ⟨rfl, m, hm, ih (i+1) m hr⟩

theorem linked_map {κ κ' : Type} {step : κ → σ → Prop} {pre : κ → σ} {step' : κ' → σ → Prop}
    {pre' : κ' → σ} (f : κ → κ') (hpre : ∀ v, pre' (f v) = pre v)
    (hstep : ∀ v u, step v u → step' (f v) u) {s t : σ} {vs : List κ}
    (h : Linked step pre s vs t) : Linked step' pre' s (vs.map f) t := by
  induction vs generalizing s with
  | nil => exact h
  | cons v vs ih =>
    obtain ⟨hv, u, hu, hr⟩ := h
    exact ⟨(hpre v).trans hv, u, hstep v u hu, ih hr⟩

/-- A property that only ever gets lost holds all along when it holds at the end. -/
theorem Linked.backward {κ : Type} {step step' : κ → σ → Prop} {pre : κ → σ} (C : σ → Prop)
    (hstep : ∀ v u, step v u → C u → C (pre v) ∧ step' v u) {s t : σ} {vs : List κ}
    (h : Linked step pre s vs t) (ht : C t) : C s ∧ Linked step' pre s vs t := by
  induction vs generalizing s with
  | nil =>
    obtain rfl : t = s := h
    exact ⟨ht, rfl⟩
  | cons v vs ih =>
    obtain ⟨rfl, u, hu, hr⟩ := h
    obtain ⟨hc, hl⟩ := ih hr
    obtain ⟨hv, hu'⟩ := hstep v u hu hc
    exact ⟨hv, rfl, u, hu', hl⟩

end Run
end DnsPkt.CheckedRun
