import DnsPkt.CheckedRun
import DnsPkt.Octets

/-!
# Runs that write a buffer they never read

The control flow of such a run and the writes it makes do not depend on the
contents of the buffer. `Traced` says so from a given state: for all contents
of one length the run takes the same way and makes the same writes. What the
buffer holds afterwards is then settled index by index: a byte that some
write covers is the same whatever the contents were, any other byte is left.
-/

set_option autoImplicit false

namespace DnsPkt.WriteTrace
open DnsPkt.CheckedRun DnsPkt.CheckedRun.Run DnsPkt.Octets

abbrev Write := ℕ × Bytes

def writes (ws : List Write) (b : Bytes) : Bytes := ws.foldl (fun b w => patch b w.1 w.2) b

def Within (n : ℕ) (ws : List Write) : Prop := ∀ w ∈ ws, w.1+w.2.length ≤ n

def Covers (ws : List Write) (i : ℕ) : Prop := ∃ w ∈ ws, w.1 ≤ i ∧ i < w.1+w.2.length

theorem writes_append (ws ws' : List Write) (b : Bytes) :
    writes (ws ++ ws') b = writes ws' (writes ws b) := List.foldl_append

theorem within_append {n : ℕ} {ws ws' : List Write} :
    Within n (ws ++ ws') ↔ Within n ws ∧ Within n ws' := List.forall_mem_append

theorem covers_append {ws ws' : List Write} {i : ℕ} :
    Covers (ws ++ ws') i ↔ Covers ws i ∨ Covers ws' i := by
  simp only [Covers, List.mem_append, or_and_right, exists_or]

theorem covers_cons {w : Write} {ws : List Write} {i : ℕ} :
    Covers (w :: ws) i ↔ (w.1 ≤ i ∧ i < w.1+w.2.length) ∨ Covers ws i := by
  simp only [Covers, List.mem_cons, or_and_right, exists_or, exists_eq_left]

theorem not_covers_nil (i : ℕ) : ¬ Covers [] i := by
  simp [Covers]

theorem length_writes {ws : List Write} {b : Bytes} (h : Within b.length ws) :
    (writes ws b).length = b.length := by
  induction ws generalizing b with
  | nil => rfl
  | cons w ws ih =>
    have hlen : (patch b w.1 w.2).length = b.length := length_patch _ _ _ (h w (by simp))
    have := ih (b := patch b w.1 w.2) fun v hv => hlen ▸ h v (by simp [hv])
    rwa [hlen] at this

/-- A byte that no write covers is left as it was. -/
theorem get_writes_of_not_covers {ws : List Write} {b : Bytes} (h : Within b.length ws) {i : ℕ}
    (hi : ¬ Covers ws i) : (writes ws b)[i]? = b[i]? := by
  induction ws generalizing b with
  | nil => rfl
  | cons w ws ih =>
    rw [covers_cons, not_or] at hi
    have hw := h w (by simp)
    have hlen : (patch b w.1 w.2).length = b.length := length_patch _ _ _ hw
    have hrest := ih (b := patch b w.1 w.2) (fun v hv => hlen ▸ h v (by simp [hv])) hi.2
    rw [get_patch hw, if_neg hi.1] at hrest
    exact hrest

/-- A byte that some write covers does not depend on the contents before. -/
theorem get_writes_of_covers {ws : List Write} {a b : Bytes} (ha : Within a.length ws)
    (hab : a.length = b.length) {i : ℕ} (hi : Covers ws i) :
    (writes ws a)[i]? = (writes ws b)[i]? := by
  induction ws generalizing a b with
  | nil => exact absurd hi (not_covers_nil i)
  | cons w ws ih =>
    have hwa := ha w (by simp)
    have hwb : w.1+w.2.length ≤ b.length := hab ▸ hwa
    have hla : (patch a w.1 w.2).length = a.length := length_patch _ _ _ hwa
    have hlb : (patch b w.1 w.2).length = b.length := length_patch _ _ _ hwb
    have hrest : Within (patch a w.1 w.2).length ws := fun v hv => hla ▸ ha v (by simp [hv])
    have hrest' : Within (patch b w.1 w.2).length ws := by rwa [hlb, ← hab, ← hla]
    by_cases hc : Covers ws i
    · exact ih hrest ((hla.trans hab).trans hlb.symm) hc
    · have hhead := (covers_cons.mp hi).resolve_right hc
      have h1 := get_writes_of_not_covers hrest hc
      have h2 := get_writes_of_not_covers hrest' hc
      rw [get_patch hwa, if_pos hhead] at h1
      rw [get_patch hwb, if_pos hhead] at h2
      exact h1.trans h2.symm

/-- Where the writes begin at `lo` or later, the bytes before stay. -/
theorem take_writes {ws : List Write} {b : Bytes} (h : Within b.length ws) {lo : ℕ}
    (hlo : ∀ w ∈ ws, lo ≤ w.1) : (writes ws b).take lo = b.take lo := by
  refine List.ext_getElem? fun i => ?_
  by_cases hi : i < lo
  · rw [List.getElem?_take_of_lt hi, List.getElem?_take_of_lt hi]
    refine get_writes_of_not_covers h ?_
    rintro ⟨w, hw, h1, -⟩
    have := hlo w hw
    omega
  · rw [List.getElem?_take_eq_none (by omega), List.getElem?_take_eq_none (by omega)]

theorem slice_of_take {a b : Bytes} {n i k : ℕ} (h : a.take n = b.take n) (hn : i+k ≤ n) :
    slice a i k = slice b i k := by
  have htake (c : Bytes) : slice c i k = slice (c.take n) i k := by
    rw [slice, slice, List.drop_take, List.take_take, Nat.min_eq_left (by omega)]
  rw [htake a, htake b, h]

structure Buffered (σ : Type) where
  buf : σ → Bytes
  withBuf : σ → Bytes → σ
  buf_withBuf : ∀ s b, buf (withBuf s b) = b
  withBuf_withBuf : ∀ s a b, withBuf (withBuf s a) b = withBuf s b
  withBuf_buf : ∀ s, withBuf s (buf s) = s

section Traced

variable {σ ε φ α β : Type} {L : Buffered σ} {E : ε → Prop} {F : φ → Prop}

/-- For all contents of the buffer the run falls through with one value and one list of
writes, leaves with one code of `E`, or meets one fault of `F`. -/
inductive Traced (L : Buffered σ) (E : ε → Prop) (F : φ → Prop) (x : Run σ ε φ α) (s : σ)
    (Q : α → List Write → σ → Prop) : Prop
  | ok (a : α) (ws : List Write) (t : σ) (hw : Within (L.buf s).length ws)
      (hbuf : L.buf t = writes ws (L.buf s)) (hq : Q a ws t)
      (run : ∀ b : Bytes, b.length = (L.buf s).length →
        x (L.withBuf s b) = .ok a (L.withBuf t (writes ws b)))
  | exit (e : ε) (he : E e)
      (run : ∀ b : Bytes, b.length = (L.buf s).length → ∃ t, x (L.withBuf s b) = .exit e t)
  | fault (c : φ) (hc : F c)
      (run : ∀ b : Bytes, b.length = (L.buf s).length → x (L.withBuf s b) = .fault c)

variable {x : Run σ ε φ α} {f : α → Run σ ε φ β} {s : σ}
  {Q R : α → List Write → σ → Prop} {P : β → List Write → σ → Prop}

theorem traced_pure {a : α} (h : Q a [] s) : Traced L E F (pure a : Run σ ε φ α) s Q :=
  .ok a [] s (by simp [Within]) rfl h fun _ _ => rfl

theorem traced_exit {e : ε} (h : E e) : Traced L E F (Run.exit e : Run σ ε φ α) s Q :=
  .exit e h fun b _ => ⟨L.withBuf s b, rfl⟩

theorem traced_fault {c : φ} (h : F c) : Traced L E F (Run.fault c : Run σ ε φ α) s Q :=
  .fault c h fun _ _ => rfl

theorem traced_modify {g : σ → σ} {Q : Unit → List Write → σ → Prop} (h : Q () [] (g s))
    (hg : ∀ b, g (L.withBuf s b) = L.withBuf (g s) b) (hbuf : L.buf (g s) = L.buf s) :
    Traced L E F (Run.modify g : Run σ ε φ Unit) s Q :=
  .ok () [] (g s) (by simp [Within]) hbuf h fun b _ => by
    rw [modify_run, hg]
    rfl

/-- The state may be read where nothing depends on the contents of its buffer. -/
theorem traced_get {g : σ → Run σ ε φ β} (h : Traced L E F (g s) s P)
    (hg : ∀ b : Bytes, b.length = (L.buf s).length → g (L.withBuf s b) = g s) :
    Traced L E F (Run.get >>= g) s P := by
  have hrun (b : Bytes) (hb : b.length = (L.buf s).length) :
      (Run.get >>= g) (L.withBuf s b) = g s (L.withBuf s b) := by
    rw [bind_of_ok (get_run _), hg b hb]
  cases h with
  | ok a ws t hw hbuf hq run =>
    exact .ok a ws t hw hbuf hq fun b hb => (hrun b hb).trans (run b hb)
  | exit e he run =>
    refine .exit e he fun b hb => ?_
    rw [hrun b hb]
    exact run b hb
  | fault c hc run => exact .fault c hc fun b hb => (hrun b hb).trans (run b hb)

theorem Traced.bind (hx : Traced L E F x s Q)
    (hf : ∀ a ws t, (L.buf t).length = (L.buf s).length → Q a ws t →
      Traced L E F (f a) t fun b ws' u => P b (ws ++ ws') u) :
    Traced L E F (x >>= f) s P := by
  cases hx with
  | exit e he run =>
    refine .exit e he fun b hb => ?_
    obtain ⟨t, ht⟩ := run b hb
    exact ⟨t, bind_of_exit ht f⟩
  | fault c hc run => exact .fault c hc fun b hb => bind_of_fault (run b hb) f
  | ok a ws t hw hbuf hq run =>
    have hlen : (L.buf t).length = (L.buf s).length := by rw [hbuf, length_writes hw]
    have hmid (b : Bytes) (hb : b.length = (L.buf s).length) :
        (writes ws b).length = (L.buf t).length := by
      rw [length_writes (hb ▸ hw), hb, hlen]
    cases hf a ws t hlen hq with
    | ok b ws' u hw' hbuf' hp run' =>
      refine .ok b (ws ++ ws') u (within_append.mpr ⟨hw, hlen ▸ hw'⟩) ?_ hp fun c hc => ?_
      · rw [writes_append, ← hbuf, hbuf']
      · rw [bind_of_ok (run c hc), run' _ (hmid c hc), writes_append]
    | exit e he run' =>
      refine .exit e he fun c hc => ?_
      obtain ⟨u, hu⟩ := run' _ (hmid c hc)
      exact ⟨u, by rw [bind_of_ok (run c hc), hu]⟩
    | fault d hd run' =>
      exact .fault d hd fun c hc => by rw [bind_of_ok (run c hc), run' _ (hmid c hc)]

theorem traced_when {p : Prop} [Decidable p] {y : Run σ ε φ Unit}
    {Q : Unit → List Write → σ → Prop} (hy : p → Traced L E F y s Q) (hn : ¬ p → Q () [] s) :
    Traced L E F (Run.when p y) s Q := by
  by_cases h : p
  · rw [when_pos h]
    exact hy h
  · rw [when_neg h]
    exact traced_pure (hn h)

/-- A weaker postcondition, where the writes may be replaced by others of the same effect. -/
theorem Traced.mono (hx : Traced L E F x s Q)
    (h : ∀ a ws t, (L.buf t).length = (L.buf s).length → Within (L.buf s).length ws → Q a ws t →
      ∃ ws', R a ws' t ∧ Within (L.buf s).length ws' ∧
        ∀ b : Bytes, b.length = (L.buf s).length → writes ws' b = writes ws b) :
    Traced L E F x s R := by
  cases hx with
  | exit e he run => exact .exit e he run
  | fault c hc run => exact .fault c hc run
  | ok a ws t hw hbuf hq run =>
    obtain ⟨ws', hr, hw', heq⟩ := h a ws t (by rw [hbuf, length_writes hw]) hw hq
    exact .ok a ws' t hw' (hbuf.trans (heq _ rfl).symm) hr fun b hb => by rw [run b hb, heq b hb]

theorem Traced.imp (hx : Traced L E F x s Q)
    (h : ∀ a ws t, (L.buf t).length = (L.buf s).length → Within (L.buf s).length ws → Q a ws t →
      R a ws t) : Traced L E F x s R :=
  hx.mono fun a ws t hlen hw hq => ⟨ws, h a ws t hlen hw hq, hw, fun _ _ => rfl⟩

/-- The postcondition may use the run itself. -/
theorem Traced.and_run (hx : Traced L E F x s Q) :
    Traced L E F x s fun a ws t => Q a ws t ∧ x s = .ok a t := by
  cases hx with
  | exit e he run => exact .exit e he run
  | fault c hc run => exact .fault c hc run
  | ok a ws t hw hbuf hq run =>
    have hrun := run _ rfl
    rw [L.withBuf_buf, ← hbuf, L.withBuf_buf] at hrun
    exact .ok a ws t hw hbuf ⟨hq, hrun⟩ run

theorem Traced.avoids (hx : Traced L E F x s Q) {G : φ → Prop} (hG : ∀ c, F c → ¬ G c) :
    Avoids G x s := by
  have hs : x (L.withBuf s (L.buf s)) = x s := by rw [L.withBuf_buf]
  cases hx with
  | ok a ws t hw hbuf hq run => exact avoids_of_ok (hs.symm.trans (run _ rfl))
  | exit e he run =>
    obtain ⟨t, ht⟩ := run _ rfl
    exact avoids_of_exit (hs.symm.trans ht)
  | fault c hc run => exact (avoids_of_fault (hs.symm.trans (run _ rfl))).mpr (hG c hc)

/-- The writes of a run that fell through. -/
theorem Traced.of_ok (hx : Traced L E F x s Q) {a : α} {t : σ} (h : x s = .ok a t) :
    ∃ ws, Within (L.buf s).length ws ∧ L.buf t = writes ws (L.buf s) ∧ Q a ws t ∧
      ∀ b : Bytes, b.length = (L.buf s).length →
        x (L.withBuf s b) = .ok a (L.withBuf t (writes ws b)) := by
  have hs : x (L.withBuf s (L.buf s)) = x s := by rw [L.withBuf_buf]
  cases hx with
  | ok a' ws t' hw hbuf hq run =>
    have hrun := hs.symm.trans (run _ rfl)
    rw [h, ← hbuf, L.withBuf_buf] at hrun
    cases hrun
    exact ⟨ws, hw, hbuf, hq, run⟩
  | exit e he run =>
    obtain ⟨u, hu⟩ := run _ rfl
    rw [hs, h] at hu
    cases hu
  | fault c hc run =>
    have hc := run _ rfl
    rw [hs, h] at hc
    cases hc

end Traced

end DnsPkt.WriteTrace
