import DnsPkt.AddressBounds
import DnsPkt.AddressGrammar

/-!
# What the scan for an IPv6 address takes

The run of `ip6_str_decode` over the reading of a text: over its segments, and
over what stands behind the last colon. The texts that it does not refuse are
told from the reading, and what it gives for them is the layout of the bytes it
has stored.
-/

set_option autoImplicit false

namespace DnsPkt.AddressScan
open DnsPkt.Octets DnsPkt.StepMachine DnsPkt.AddressText DnsPkt.AddressRoundTrip
open DnsPkt.QuadText DnsPkt.AddressBounds DnsPkt.ColonText DnsPkt.AddressGrammar

/-- A segment the scan goes over, with `n` colons counted and a double colon seen or not. -/
def Admits (u : Segment) (n : ℕ) (z : Bool) : Prop :=
  u.digits.length ≤ 4 ∧ (u.digits ≠ [] → n < 7) ∧ (u.double = true → z = false)

def Passes : List Segment → ℕ → Bool → Prop
  | [], _, _ => True
  | u :: us, n, z => Admits u n z ∧ Passes us (n+1) (z || u.double)

/-- The texts that the scan takes. A dotted quad is looked for from the second character
behind the last colon on. -/
structure Taken (r : Reading) : Prop where
  passes : Passes r.segs 0 false
  last : r.last.length ≤ 4
  plain : r.rest.head? ≠ some 46 → Undoubled r.segs →
    r.segs.length+(if r.last ≠ [] then 1 else 0) = 8
  quad : r.rest.head? = some 46 → r.segs.length ≤ 6 ∧ (Undoubled r.segs → r.segs.length = 6) ∧
    ((∃ os n, QuadFront (r.ending.drop 1) os n) ∨ ∃ os, Overlong (r.ending.drop 1) os)

theorem length_groupOf_le (ds : Bytes) : (groupOf ds).length ≤ 2 := by
  rw [length_groupOf]
  split_ifs <;> omega

theorem zeroFill_layout {w m : Bytes} {i : ℕ} (hm : m.length = 16) (hi : i ≤ w.length)
    (hw : w.length ≤ 16) : zeroFill (patch m 0 w) i w.length = layout (some i) w m := by
  have hlen : (w.take i).length = i := by
    rw [List.length_take]
    omega
  have h := zeroFill_gap (w.take i) (w.drop i) m hm (by simp; omega)
  rw [List.take_append_drop, hlen] at h
  rw [h, layout, Option.elim_some, spread, List.take_append_drop]

/-- What the decoder gives at its end, with `w` stored and `n` segments counted. -/
def verdict (z : Option ℕ) (n strPtr : ℕ) (w m : Bytes) : ℕ × Bytes :=
  if z = none ∧ n ≠ 8 then (0, patch m 0 w) else (strPtr, layout z w m)

section Scan

variable {str rest t : Bytes} {o : ℕ × Bytes} {p e n : ℕ} {z : Option ℕ} {m w : Bytes}

def behind (str m w : Bytes) (z : Option ℕ) (n e p : ℕ) (ds : Bytes) : Ip6Scan :=
  ⟨p+ds.length, str.length, e, patch m 0 w, w.length, z, ds.length, n, hexOf 0 ds⟩

theorem ip6_behind {ds : Bytes} (hs : str.drop p = ds ++ rest) (hn : ∀ ch ∈ ds, isHex ch = true)
    (hd : ds.length ≤ 4) :
    Leads (ip6Step str) o ds.length (segment str m w z n e p) (behind str m w z n e p ds) := by
  have h := ip6_digits (o := o) (e := e) (m := patch m 0 w) (q := w.length) (z := z) (n := 0)
    (k := n) (a := 0) ds hs hn (by omega)
  rwa [Nat.zero_add] at h

theorem ip6_fifth {ds : Bytes} (hs : str.drop p = ds ++ rest) (hn : ∀ ch ∈ ds, isHex ch = true)
    (hd : 4 < ds.length) :
    ∃ j, Ends (ip6Step str) o j (segment str m w z n e p) (0, patch m 0 w) := by
  have hlen : (ds.take 4).length = 4 := by
    rw [List.length_take]
    omega
  obtain ⟨ch, tl, hcons⟩ := List.exists_cons_of_ne_nil
    (show ds.drop 4 ≠ [] by rw [Ne, List.drop_eq_nil_iff]; omega)
  have hsplit : str.drop p = ds.take 4 ++ ch :: (tl ++ rest) := by
    rw [← List.cons_append, ← hcons, ← List.append_assoc, List.take_append_drop, hs]
  obtain ⟨hp, hc, -⟩ := drop_reads (drop_skips hsplit)
  refine ⟨_, (ip6_behind hsplit (fun c hc => hn c (List.mem_of_mem_take hc)) (by omega)).ends
    (ends_done ?_)⟩
  have hhex := hn ch (List.mem_of_mem_drop (by rw [hcons]; simp))
  rw [behind]
  simp only [ip6Step]
  rw [if_pos hp, hc, if_pos hhex, if_pos (by omega)]

/-- The digits of a segment are stored. -/
theorem patch_groupOf {ds : Bytes} (hd : ds ≠ []) (hw : w.length+2 ≤ m.length) :
    patch (patch m 0 w) w.length (encU16 (UInt16.ofNat (hexOf 0 ds))) =
      patch m 0 (w ++ groupOf ds) := by
  have := patch_group (m := m) (w := w) (hexOf 0 ds) hw
  rw [this, groupOf, if_neg hd]
  simp [groupBytes]

/-- A colon behind admitted digits. -/
theorem ip6_colon_step {ds : Bytes} (hs : str.drop p = ds ++ 58 :: rest)
    (h7 : ds ≠ [] → n < 7) (hm : m.length = 16) (hw : w.length ≤ 14) :
    ∃ k a, ip6Step str (behind str m w z n e p ds) = Ip6Scan.gap str ⟨p+ds.length+1, str.length, e,
      patch m 0 (w ++ groupOf ds), (w ++ groupOf ds).length, z, k, n, a⟩ := by
  rw [behind, ip6Step_colon (drop_skips hs), Ip6Scan.colon]
  by_cases hd : ds = []
  · refine ⟨0, 0, ?_⟩
    rw [hd, if_neg (by simp)]
    simp [groupOf, hexOf]
  · have hpos := List.length_pos_iff.mpr hd
    have h7 := h7 hd
    refine ⟨ds.length, hexOf 0 ds, ?_⟩
    rw [if_pos (by simp only []; omega), if_neg (by simp only []; omega), Ip6Scan.store]
    have hstore := patch_groupOf (m := m) (w := w) hd (by omega)
    simp only [hstore, List.length_append, length_groupOf, ne_eq, hd,
      not_false_eq_true, ↓reduceIte]

theorem ip6_colon_full {ds : Bytes} (hs : str.drop p = ds ++ 58 :: rest) (hd : ds ≠ [])
    (h7 : 7 ≤ n) : ip6Step str (behind str m w z n e p ds) = .done (0, patch m 0 w) := by
  have hpos := List.length_pos_iff.mpr hd
  rw [behind, ip6Step_colon (drop_skips hs), Ip6Scan.colon, if_pos (by simp only []; omega),
    if_pos (by simpa using h7)]

theorem gap_at {k a : ℕ} (hd : rest.head? = some 58) (hs : str.drop p = rest) :
    Ip6Scan.gap str ⟨p, str.length, e, patch m 0 w, w.length, z, k, n, a⟩ =
      if z ≠ none then .done (0, patch m 0 w)
      else .next (segment str m w (some w.length) (n+1) (p+2) (p+1)) := by
  obtain ⟨t, rfl⟩ := List.head?_eq_some_iff.mp hd
  obtain ⟨hp, hc, -⟩ := drop_reads hs
  rw [Ip6Scan.gap, if_pos ⟨hp, hc⟩]
  rfl

theorem gap_none {k a : ℕ} (hd : rest.head? ≠ some 58) (hs : str.drop p = rest) :
    Ip6Scan.gap str ⟨p, str.length, e, patch m 0 w, w.length, z, k, n, a⟩ =
      .next (segment str m w z (n+1) (p+1) p) := by
  rw [Ip6Scan.gap, if_neg]
  · rfl
  · rintro ⟨hp, hc⟩
    apply hd
    rw [← hs, List.drop_eq_getElem_cons hp, List.head?_cons]
    simpa [List.getD, hp] using hc

theorem segment_text {u : Segment} (hs : str.drop p = u.text ++ t) :
    str.drop p = u.digits ++ 58 :: ((if u.double then [58] else []) ++ t) := by
  rw [hs, Segment.text, List.append_assoc, List.cons_append]

theorem ip6_segment {u : Segment} (hs : str.drop p = u.text ++ t)
    (hn : ∀ ch ∈ u.digits, isHex ch = true) (hsp : u.double = false → t.head? ≠ some 58)
    (ha : Admits u n z.isSome) (hm : m.length = 16) (hw : w.length ≤ 14) :
    Leads (ip6Step str) o (1+u.digits.length) (segment str m w z n e p)
      (segment str m (w ++ groupOf u.digits)
        (if u.double then some (w ++ groupOf u.digits).length else z) (n+1)
        (p+u.text.length+1) (p+u.text.length)) := by
  have hs' := segment_text hs
  obtain ⟨k, a, hstep⟩ := ip6_colon_step (z := z) (e := e) hs' ha.2.1 hm hw
  refine (ip6_behind hs' hn ha.1).trans (leads_next ?_)
  rw [hstep]
  cases hd : u.double with
  | true =>
    have hz : z = none := by simpa using ha.2.2 hd
    rw [hd] at hs'
    rw [gap_at rfl (drop_after hs'), if_neg (by simp [hz])]
    simp [Segment.text, hd, Nat.add_assoc]
  | false =>
    rw [hd] at hs'
    rw [gap_none (hsp hd) (drop_after hs')]
    simp [Segment.text, hd, Nat.add_assoc]

theorem ip6_segment_refused {u : Segment} (hs : str.drop p = u.text ++ t)
    (hn : ∀ ch ∈ u.digits, isHex ch = true) (ha : ¬Admits u n z.isSome) (hm : m.length = 16)
    (hw : w.length ≤ 14) : ∃ j m', Ends (ip6Step str) o j (segment str m w z n e p) (0, m') := by
  have hs' := segment_text hs
  by_cases h4 : u.digits.length ≤ 4
  · have hb := ip6_behind (o := o) (m := m) (w := w) (z := z) (n := n) (e := e) hs' hn h4
    by_cases h7 : u.digits ≠ [] → n < 7
    · obtain ⟨k, a, hstep⟩ := ip6_colon_step (z := z) (e := e) hs' h7 hm hw
      have hd : u.double = true ∧ z ≠ none := by
        by_contra hcon
        refine ha ⟨h4, h7, fun hd => ?_⟩
        simpa [hd] using hcon
      rw [hd.1] at hs'
      rw [gap_at rfl (drop_after hs'), if_pos hd.2] at hstep
      exact ⟨_, _, hb.ends (ends_done hstep)⟩
    · obtain ⟨hd, h7⟩ := Classical.not_imp.mp h7
      exact ⟨_, _, hb.ends (ends_done (ip6_colon_full hs' hd (by omega)))⟩
  · obtain ⟨j, hj⟩ := ip6_fifth (o := o) (m := m) (w := w) (z := z) (n := n) (e := e) hs' hn
      (by omega)
    exact ⟨j, _, hj⟩

theorem admits_room {u : Segment} {b : Bool} (ha : Admits u n b) (hw : w.length ≤ 2*min n 7) :
    (w ++ groupOf u.digits).length ≤ 2*min (n+1) 7 := by
  have h7 := ha.2.1
  rw [List.length_append, length_groupOf]
  by_cases hd : u.digits = []
  · simp only [hd, ne_eq, not_true_eq_false, ↓reduceIte]
    omega
  · have := h7 hd
    simp only [hd, ne_eq, not_false_eq_true, ↓reduceIte]
    omega

theorem gapAt_or (u : Segment) (us : List Segment) (ha : Admits u n z.isSome) :
    (if u.double then some (w ++ groupOf u.digits).length else z).or
        (gapAt us (w ++ groupOf u.digits).length) = z.or (gapAt (u :: us) w.length) := by
  cases hd : u.double with
  | true =>
    have hz : z = none := by simpa using ha.2.2 hd
    simp [hz, gapAt, hd]
  | false => simp [gapAt, hd]

theorem isSome_double (u : Segment) (q : ℕ) :
    (if u.double then some q else z).isSome = (z.isSome || u.double) := by
  cases u.double <;> simp

/-- The scan over segments that it admits. -/
theorem ip6_passes {us : List Segment} (hs : str.drop p = segsText us ++ t)
    (hn : ∀ u ∈ us, ∀ ch ∈ u.digits, isHex ch = true) (hsp : Spaced us t)
    (hp : Passes us n z.isSome) (hm : m.length = 16) (hw : w.length ≤ 2*min n 7) :
    ∃ j, Leads (ip6Step str) o j (segment str m w z n e p)
      (segment str m (w ++ segsBytes us) (z.or (gapAt us w.length)) (n+us.length)
        (if us = [] then e else p+(segsText us).length+1) (p+(segsText us).length)) := by
  induction us generalizing p e n z w with
  | nil =>
    refine ⟨0, ?_⟩
    simp only [segsBytes, segsText, gapAt, List.flatMap_nil, List.append_nil, Option.or_none,
      List.length_nil, Nat.add_zero, ↓reduceIte]
    exact fun k => rfl
  | cons u us ih =>
    have htext : segsText (u :: us) = u.text ++ segsText us := by simp [segsText]
    rw [htext, List.append_assoc] at hs
    have h1 := ip6_segment (o := o) (m := m) (w := w) (z := z) (n := n) (e := e) hs
      (hn u (by simp)) hsp.1 hp.1 hm (by omega)
    have hpass := hp.2
    rw [← isSome_double u (w ++ groupOf u.digits).length] at hpass
    obtain ⟨j, hj⟩ := ih (e := p+u.text.length+1) (drop_skips hs) (fun v hv => hn v (by simp [hv]))
      hsp.2 hpass (admits_room hp.1 hw)
    rw [gapAt_or u us hp.1] at hj
    have h2 := h1.trans hj
    have hbytes : w ++ groupOf u.digits ++ segsBytes us = w ++ segsBytes (u :: us) := by
      simp [segsBytes]
    have hlen : p+u.text.length+(segsText us).length = p+(segsText (u :: us)).length := by
      rw [htext, List.length_append, Nat.add_assoc]
    have hseg : (if us = [] then p+u.text.length+1 else p+u.text.length+(segsText us).length+1) =
        p+(segsText (u :: us)).length+1 := by
      split_ifs with hnil
      · rw [htext, hnil]
        simp [segsText]
      · rw [hlen]
    rw [hseg, hbytes, hlen, show n+1+us.length = n+(u :: us).length by
      rw [List.length_cons]; omega] at h2
    rw [if_neg (by simp)]
    exact ⟨_, h2⟩

/-- The scan is over at the first segment that it does not admit. -/
theorem ip6_passes_not {us : List Segment} (hs : str.drop p = segsText us ++ t)
    (hn : ∀ u ∈ us, ∀ ch ∈ u.digits, isHex ch = true) (hsp : Spaced us t)
    (hp : ¬Passes us n z.isSome) (hm : m.length = 16) (hw : w.length ≤ 2*min n 7) :
    ∃ j m', Ends (ip6Step str) o j (segment str m w z n e p) (0, m') := by
  induction us generalizing p e n z w with
  | nil => exact absurd trivial hp
  | cons u us ih =>
    have htext : segsText (u :: us) = u.text ++ segsText us := by simp [segsText]
    rw [htext, List.append_assoc] at hs
    by_cases ha : Admits u n z.isSome
    · have h1 := ip6_segment (o := o) (m := m) (w := w) (z := z) (n := n) (e := e) hs
        (hn u (by simp)) hsp.1 ha hm (by omega)
      have hpass : ¬Passes us (n+1) (z.isSome || u.double) := fun h => hp ⟨ha, h⟩
      rw [← isSome_double u (w ++ groupOf u.digits).length] at hpass
      obtain ⟨j, m', hj⟩ := ih (e := p+u.text.length+1) (drop_skips hs)
        (fun v hv => hn v (by simp [hv])) hsp.2 hpass (admits_room ha hw)
      exact ⟨_, m', h1.ends hj⟩
    · exact ip6_segment_refused hs (hn u (by simp)) ha hm (by omega)

theorem passes_room {us : List Segment} {b : Bool} (hp : Passes us n b)
    (hw : w.length ≤ 2*min n 7) : (w ++ segsBytes us).length ≤ 2*min (n+us.length) 7 := by
  induction us generalizing n b w with
  | nil => simpa [segsBytes] using hw
  | cons u us ih =>
    have h := ih hp.2 (admits_room hp.1 hw)
    have hbytes : w ++ segsBytes (u :: us) = w ++ groupOf u.digits ++ segsBytes us := by
      simp [segsBytes]
    rw [hbytes, List.length_cons, show n+(us.length+1) = n+1+us.length by omega]
    exact h

theorem gapAt_le {us : List Segment} {k i : ℕ} (h : gapAt us k = some i) :
    i ≤ k+(segsBytes us).length := by
  induction us generalizing k with
  | nil => cases h
  | cons u us ih =>
    simp only [gapAt] at h
    rw [segsBytes, List.flatMap_cons, List.length_append]
    cases hd : u.double with
    | true =>
      simp only [hd, ↓reduceIte, Option.some.injEq] at h
      omega
    | false =>
      simp only [hd, Bool.false_eq_true, ↓reduceIte] at h
      have := ih h
      rw [segsBytes] at this
      omega

theorem finish_stored {a k i j : ℕ} (hz : ∀ q ∈ z, q ≤ w.length) (hm : m.length = 16)
    (hw : w.length ≤ 16) (hk : k = 0) :
    Ip6Scan.finish ⟨i, j, e, patch m 0 w, w.length, z, k, n, a⟩ = verdict z n i w m := by
  rw [Ip6Scan.finish, if_neg (by simp [hk]), verdict]
  cases z with
  | none =>
    by_cases h8 : n = 8
    · simp [h8, layout]
    · simp [h8]
  | some q =>
    have := zeroFill_layout hm (hz q rfl) hw
    simp [this]

theorem finish_digits {ds : Bytes} {i j : ℕ} (hz : ∀ q ∈ z, q ≤ w.length) (hm : m.length = 16)
    (hw : w.length ≤ 14) :
    Ip6Scan.finish ⟨i, j, e, patch m 0 w, w.length, z, ds.length, n, hexOf 0 ds⟩ =
      verdict z (n+if ds ≠ [] then 1 else 0) i (w ++ groupOf ds) m := by
  by_cases hd : ds = []
  · rw [finish_stored hz hm (by omega) (by rw [hd]; rfl), hd]
    simp [groupOf]
  · have hpos := List.length_pos_iff.mpr hd
    have hstore := patch_groupOf (m := m) (w := w) hd (by omega)
    have hlen : (w ++ groupOf ds).length = w.length+2 := by
      rw [List.length_append, length_groupOf, if_pos hd]
    have h := finish_stored (e := e) (n := n+1) (a := hexOf 0 ds) (k := 0) (i := i) (j := j)
      (w := w ++ groupOf ds) (fun q hq => (hz q hq).trans (by rw [hlen]; omega)) hm
      (by rw [hlen]; omega) rfl
    rw [if_pos hd, ← h, hlen, ← hstore]
    simp only [Ip6Scan.finish, Ip6Scan.store, ne_eq, show ¬ds.length = 0 by omega,
      not_false_eq_true, not_true_eq_false, ↓reduceIte]

/-- A text without a dot behind its last colon. -/
theorem ip6_plain_end {ds : Bytes} (hs : str.drop p = ds ++ rest)
    (hn : ∀ ch ∈ ds, isHex ch = true) (hd : ds.length ≤ 4)
    (hr : ∀ ch ∈ rest.head?, isHex ch = false ∧ ch ≠ 58 ∧ ch ≠ 46) (hp : p ≤ str.length)
    (hz : ∀ i ∈ z, i ≤ w.length) (hm : m.length = 16) (hw : w.length ≤ 14) :
    ∃ j, Ends (ip6Step str) o j (segment str m w z n e p)
      (verdict z (n+if ds ≠ [] then 1 else 0) (p+ds.length+(rest.take 1).length)
        (w ++ groupOf ds) m) := by
  have hb := ip6_behind (o := o) (m := m) (w := w) (z := z) (n := n) (e := e) hs hn hd
  cases rest with
  | nil =>
    have hlen : str.length = p+ds.length := by
      have := congrArg List.length hs
      rw [List.length_drop, List.append_nil] at this
      omega
    refine ⟨_, hb.ends (ends_done ?_)⟩
    rw [behind, ip6Step, if_neg (by simp only []; omega), finish_digits hz hm hw]
    rfl
  | cons ch rest =>
    obtain ⟨hhex, hcolon, hdot⟩ := hr ch rfl
    obtain ⟨hlt, hc, -⟩ := drop_reads (drop_skips hs)
    have hstep : ip6Step str (behind str m w z n e p ds) = .next ⟨p+ds.length+1, 0, e,
        patch m 0 w, w.length, z, ds.length, n, hexOf 0 ds⟩ := by
      rw [behind]
      simp only [ip6Step]
      rw [if_pos hlt, hc, if_neg (by simp [hhex]), if_neg hcolon, if_neg hdot]
    refine ⟨_, hb.ends ((leads_next hstep).ends (ends_done ?_))⟩
    rw [ip6Step, if_neg (by simp), finish_digits hz hm hw]
    rfl

theorem ip6_dot_step {ds : Bytes} (hs : str.drop p = ds ++ 46 :: rest) :
    ip6Step str (behind str m w z n e p ds) = Ip6Scan.dot str ⟨p+ds.length+1, str.length, e,
      patch m 0 w, w.length, z, ds.length, n, hexOf 0 ds⟩ := by
  obtain ⟨hp, hc, -⟩ := drop_reads (drop_skips hs)
  rw [behind]
  simp only [ip6Step]
  rw [if_pos hp, hc, if_neg (by simp [dot_not_hex]), if_neg (by decide), if_pos rfl]

/-- The dot sends the scan back to read the text from the segment pointer on. -/
theorem dot_reads {p k a : ℕ} (h6 : n ≤ 6) :
    Ip6Scan.dot str ⟨p, str.length, e, patch m 0 w, w.length, z, k, n, a⟩ =
      let (i, quad) := ip4StrDecode (str.drop e) (m.drop w.length)
      if (e+i) % 2^64 = e then .done (0, w ++ quad)
      else .next ⟨(e+i) % 2^64, 0, e, w ++ quad, w.length+4, z, 0, n+2, a⟩ := by
  have hdrop : (patch m 0 w).drop w.length = m.drop w.length := by
    rw [patch, List.take_zero, List.nil_append, List.drop_left, Nat.zero_add]
  have htake : (patch m 0 w).take w.length = w := by
    rw [patch, List.take_zero, List.nil_append, List.take_left]
  have hslice : slice str e (str.length-e) = str.drop e := by
    rw [slice, List.take_of_length_le (by rw [List.length_drop])]
  rw [Ip6Scan.dot, if_neg (by simp only []; omega)]
  simp only [hdrop, htake, hslice]

theorem append_patch (w x m : Bytes) : w ++ patch (m.drop w.length) 0 x = patch m 0 (w ++ x) := by
  simp [patch, List.drop_drop]

/-- Bytes that are stored where they are already. -/
theorem patch_stale (x m : Bytes) (k : ℕ) :
    patch m 0 (x ++ (m.drop x.length).take k) = patch m 0 x := by
  have hlen : (m.drop (x.length+((m.drop x.length).take k).length)) =
      (m.drop x.length).drop k := by
    rw [← List.drop_drop, List.length_take]
    rcases Nat.le_total k (m.drop x.length).length with h | h
    · rw [Nat.min_eq_left h]
    · rw [Nat.min_eq_right h, List.drop_length, List.drop_eq_nil_of_le h]
  simp only [patch, List.take_zero, List.nil_append, Nat.zero_add, List.length_append, hlen,
    List.append_assoc, List.take_append_drop]

theorem QuadFront.isQuad {os : List Bytes} {k : ℕ} (h : QuadFront t os k) : IsQuad os := by
  obtain ⟨first, last, rest, rfl, hl, ho, -⟩ := h
  exact ⟨by rw [List.length_append, hl]; rfl, ho⟩

theorem QuadFront.le_length {os : List Bytes} {k : ℕ} (h : QuadFront t os k) : k ≤ t.length := by
  obtain ⟨first, last, rest, -, -, -, rfl, rfl, -⟩ := h
  simp only [List.length_append, List.length_take]
  omega

/-- The bytes of an overlong quad: the octets that were read, and old bytes for the others. -/
def staleQuad (w m : Bytes) (os : List Bytes) : Bytes :=
  let x := os.map octetOf
  x ++ (m.drop (w ++ x).length).take (4-x.length)

theorem length_staleQuad {os : List Bytes} (ho : os.length ≤ 3) (hm : m.length = 16)
    (hw : w.length ≤ 12) : (staleQuad w m os).length = 4 := by
  simp only [staleQuad, List.length_append, List.length_take, List.length_drop, List.length_map]
  omega

theorem ip6_quad_end {ds : Bytes} {os : List Bytes} {k : ℕ} (hs : str.drop p = ds ++ 46 :: rest)
    (hn : ∀ ch ∈ ds, isHex ch = true) (hd : ds.length ≤ 4) (h6 : n ≤ 6)
    (hq : QuadFront (str.drop e) os k) (hlen : str.length < 2^64) (hz : ∀ i ∈ z, i ≤ w.length)
    (hm : m.length = 16) (hw : w.length ≤ 12) :
    ∃ j, Ends (ip6Step str) o j (segment str m w z n e p)
      (verdict z (n+2) (e+k) (w ++ os.map octetOf) m) := by
  have hle := hq.le
  have hfit := QuadFront.le_length hq
  rw [List.length_drop] at hfit
  have hos : (os.map octetOf).length = 4 := by rw [List.length_map, (QuadFront.isQuad hq).1]
  have hstep := (ip6_dot_step (m := m) (w := w) (z := z) (n := n) (e := e) hs).trans (dot_reads h6)
  rw [ip4StrDecode_front hq (by rw [List.length_drop]; omega)] at hstep
  simp only [show (e+k) % 2^64 = e+k by omega, show ¬e+k = e by omega, ↓reduceIte,
    append_patch] at hstep
  refine ⟨_, (ip6_behind hs hn hd).ends ((leads_next hstep).ends (ends_done ?_))⟩
  have hlenW : (w ++ os.map octetOf).length = w.length+4 := by rw [List.length_append, hos]
  rw [ip6Step, if_neg (by simp), ← hlenW]
  rw [finish_stored (fun i hi => (hz i hi).trans (by omega)) hm (by omega) rfl]

theorem ip6_stale_end {ds : Bytes} {os : List Bytes} (hs : str.drop p = ds ++ 46 :: rest)
    (hn : ∀ ch ∈ ds, isHex ch = true) (hd : ds.length ≤ 4) (h6 : n ≤ 6)
    (hq : Overlong (str.drop e) os) (hz : ∀ i ∈ z, i ≤ w.length)
    (hm : m.length = 16) (hw : w.length ≤ 12) :
    ∃ j, Ends (ip6Step str) o j (segment str m w z n e p)
      (verdict z (n+2) ((e+sizeMax) % 2^64) (w ++ staleQuad w m os) m) := by
  have hstep := (ip6_dot_step (m := m) (w := w) (z := z) (n := n) (e := e) hs).trans (dot_reads h6)
  rw [ip4StrDecode_overlong hq (by rw [List.length_drop]; omega)] at hstep
  have hne : ¬(e+sizeMax) % 2^64 = e := by
    simp only [sizeMax]
    omega
  simp only [hne, ↓reduceIte, append_patch] at hstep
  obtain ⟨-, -, -, ho, -⟩ := hq
  have hquad := length_staleQuad ho hm hw
  have hlenW : (w ++ staleQuad w m os).length = w.length+4 := by rw [List.length_append, hquad]
  have hsame : patch m 0 (w ++ os.map octetOf) = patch m 0 (w ++ staleQuad w m os) := by
    simp only [staleQuad, ← List.append_assoc, patch_stale]
  rw [hsame] at hstep
  refine ⟨_, (ip6_behind hs hn hd).ends ((leads_next hstep).ends (ends_done ?_))⟩
  rw [ip6Step, if_neg (by simp), ← hlenW]
  rw [finish_stored (fun i hi => (hz i hi).trans (by omega)) hm (by omega) rfl]

/-- A dot behind which no quad is found. -/
theorem ip6_dot_refused {ds : Bytes} (hs : str.drop p = ds ++ 46 :: rest)
    (hn : ∀ ch ∈ ds, isHex ch = true) (hd : ds.length ≤ 4) (he : e < 2^64)
    (hm : m.length = 16) (hw : n ≤ 6 → w.length ≤ 12)
    (hq : ¬(n ≤ 6 ∧ ((∃ os k, QuadFront (str.drop e) os k) ∨ ∃ os, Overlong (str.drop e) os))) :
    ∃ j m', Ends (ip6Step str) o j (segment str m w z n e p) (0, m') := by
  have hb := ip6_behind (o := o) (m := m) (w := w) (z := z) (n := n) (e := e) hs hn hd
  by_cases h6 : n ≤ 6
  · have hstep := (ip6_dot_step (m := m) (w := w) (z := z) (n := n) (e := e) hs).trans
      (dot_reads h6)
    have hw := hw h6
    rcases ip4_cases (str.drop e) (m.drop w.length) (by rw [List.length_drop]; omega) with
      ⟨m', hzero⟩ | hover | hfront
    · rw [hzero] at hstep
      simp only [Nat.add_zero, Nat.mod_eq_of_lt he, ↓reduceIte] at hstep
      exact ⟨_, _, hb.ends (ends_done hstep)⟩
    · exact absurd ⟨h6, .inr hover⟩ hq
    · exact absurd ⟨h6, .inl hfront⟩ hq
  · have hstep := ip6_dot_step (m := m) (w := w) (z := z) (n := n) (e := e) hs
    rw [Ip6Scan.dot, if_pos (by simp only []; omega)] at hstep
    exact ⟨_, _, hb.ends (ends_done hstep)⟩

end Scan

theorem gapAt_eq_none {us : List Segment} {k : ℕ} : gapAt us k = none ↔ Undoubled us := by
  constructor
  · intro h
    induction us generalizing k with
    | nil =>
      intro u hu
      cases hu
    | cons u us ih =>
      simp only [gapAt] at h
      cases hd : u.double with
      | true => simp [hd] at h
      | false =>
        simp only [hd, Bool.false_eq_true, ↓reduceIte] at h
        intro v hv
        rcases List.mem_cons.mp hv with rfl | hv
        · exact hd
        · exact ih h v hv
  · exact fun h => gapAt_undoubled h k

theorem verdict_taken {us : List Segment} {n sp : ℕ} {w m : Bytes} (h : Undoubled us → n = 8) :
    verdict (gapAt us 0) n sp w m = (sp, layout (gapAt us 0) w m) := by
  rw [verdict, if_neg]
  rintro ⟨hgap, hn⟩
  exact hn (h (gapAt_eq_none.mp hgap))

theorem verdict_refused {us : List Segment} {n sp : ℕ} {w m : Bytes} (h : ¬(Undoubled us → n = 8)) :
    (verdict (gapAt us 0) n sp w m).1 = 0 := by
  obtain ⟨hu, hn⟩ := Classical.not_imp.mp h
  rw [verdict, if_pos ⟨gapAt_undoubled hu 0, hn⟩]

section Whole

variable {s m : Bytes} {r : Reading}

theorem ip6StrDecode_done {v : ℕ × Bytes} {j : ℕ}
    (h : Ends (ip6Step s) (0, m) j (segment s m [] none 0 0 0) v) : ip6StrDecode s m = v := by
  rw [AddressRoundTrip.segment, patch_nil] at h
  exact h.enough (ip6_counts s) (by simp only []; omega)

def segPos (us : List Segment) : ℕ := if us = [] then 0 else (segsText us).length+1

theorem scan_segments (hr : Reads s r) (hp : Passes r.segs 0 false) (hm : m.length = 16) :
    ∃ j, Leads (ip6Step s) (0, m) j (segment s m [] none 0 0 0)
      (segment s m (segsBytes r.segs) (gapAt r.segs 0) r.segs.length (segPos r.segs)
        (segsText r.segs).length) := by
  obtain ⟨j, hj⟩ := ip6_passes (o := (0, m)) (m := m) (w := []) (z := none) (n := 0) (e := 0)
    (p := 0)
    (show s.drop 0 = _ from hr.text) hr.segs hr.spaced hp hm (by simp)
  rw [List.nil_append, Option.none_or, Nat.zero_add, Nat.zero_add] at hj
  exact ⟨j, hj⟩

theorem drop_segs (hr : Reads s r) : s.drop (segsText r.segs).length = r.ending := by
  rw [hr.text, List.drop_left]

theorem segs_room (hp : Passes r.segs 0 false) :
    (segsBytes r.segs).length ≤ 2*min r.segs.length 7 := by
  have h := passes_room (w := []) hp (by simp)
  rwa [List.nil_append, Nat.zero_add] at h

theorem gap_within : ∀ i ∈ gapAt r.segs 0, i ≤ (segsBytes r.segs).length := by
  intro i hi
  have := gapAt_le hi
  omega

/-- Where the quad of a text with segments is looked for. -/
theorem drop_segPos (hr : Reads s r) (hne : r.segs ≠ []) :
    s.drop (segPos r.segs) = r.ending.drop 1 := by
  rw [segPos, if_neg hne, ← List.drop_drop, drop_segs hr]

theorem plain_stop (hr : Reads s r) (hdot : r.rest.head? ≠ some 46) :
    ∀ ch ∈ r.rest.head?, isHex ch = false ∧ ch ≠ 58 ∧ ch ≠ 46 := by
  intro ch hch
  obtain ⟨hhex, hcolon⟩ := hr.stop ch hch
  refine ⟨hhex, hcolon, ?_⟩
  rintro rfl
  exact hdot hch

theorem plain_result (hr : Reads s r) (hp : Passes r.segs 0 false) (hl : r.last.length ≤ 4)
    (hdot : r.rest.head? ≠ some 46) (hm : m.length = 16) :
    ip6StrDecode s m = verdict (gapAt r.segs 0) (r.segs.length+if r.last ≠ [] then 1 else 0)
      ((segsText r.segs).length+r.last.length+(r.rest.take 1).length)
      (segsBytes r.segs ++ groupOf r.last) m := by
  obtain ⟨j, hj⟩ := scan_segments hr hp hm
  have hroom := segs_room hp
  obtain ⟨i, hi⟩ := ip6_plain_end (o := (0, m)) (m := m) (w := segsBytes r.segs)
    (z := gapAt r.segs 0) (n := r.segs.length) (e := segPos r.segs) (drop_segs hr) hr.last hl
      (plain_stop hr hdot)
    (by rw [congrArg List.length hr.text, List.length_append]; omega) gap_within hm (by omega)
  exact ip6StrDecode_done (hj.ends hi)

theorem taken_plain (hr : Reads s r) (ht : Taken r) (hdot : r.rest.head? ≠ some 46)
    (hm : m.length = 16) : ip6StrDecode s m =
      ((segsText r.segs).length+r.last.length+(r.rest.take 1).length,
        layout (gapAt r.segs 0) (segsBytes r.segs ++ groupOf r.last) m) := by
  rw [plain_result hr ht.passes ht.last hdot hm, verdict_taken (ht.plain hdot)]

theorem dot_ending (hdot : r.rest.head? = some 46) : ∃ t, r.ending = r.last ++ 46 :: t := by
  obtain ⟨t, ht⟩ := List.head?_eq_some_iff.mp hdot
  exact ⟨t, by rw [Reading.ending, ht]⟩

theorem quad_segs {us : List Segment} (h : Undoubled us → us.length = 6) : us ≠ [] := by
  rintro rfl
  have : ([] : List Segment).length = 6 := h fun u hu => nomatch hu
  cases this

theorem length_lt (hr : Reads s r) (hdot : r.rest.head? = some 46) (hlen : s.length < 2^64) :
    (segsText r.segs).length+1 < 2^64 := by
  obtain ⟨t, ht⟩ := List.head?_eq_some_iff.mp hdot
  have := congrArg List.length hr.text
  rw [Reading.ending, ht] at this
  simp only [List.length_append, List.length_cons] at this
  omega

theorem taken_quad (hr : Reads s r) (ht : Taken r) (hdot : r.rest.head? = some 46)
    {os : List Bytes} {k : ℕ} (hq : QuadFront (r.ending.drop 1) os k) (hlen : s.length < 2^64)
    (hm : m.length = 16) : ip6StrDecode s m =
      ((segsText r.segs).length+1+k,
        layout (gapAt r.segs 0) (segsBytes r.segs ++ os.map octetOf) m) := by
  obtain ⟨h6, hu, -⟩ := ht.quad hdot
  obtain ⟨t, hend⟩ := dot_ending hdot
  have hne := quad_segs hu
  obtain ⟨j, hj⟩ := scan_segments hr ht.passes hm
  have hroom := segs_room ht.passes
  rw [← drop_segPos hr hne] at hq
  obtain ⟨i, hi⟩ := ip6_quad_end (o := (0, m)) (m := m) (w := segsBytes r.segs)
    (z := gapAt r.segs 0) (n := r.segs.length)
    ((drop_segs hr).trans hend) hr.last ht.last h6 hq hlen gap_within hm (by omega)
  rw [verdict_taken (fun h => by rw [hu h]), segPos, if_neg hne] at hi
  rw [segPos, if_neg hne] at hj
  exact ip6StrDecode_done (hj.ends hi)

theorem taken_stale (hr : Reads s r) (ht : Taken r) (hdot : r.rest.head? = some 46)
    {os : List Bytes} (hq : Overlong (r.ending.drop 1) os) (hlen : s.length < 2^64)
    (hm : m.length = 16) : ip6StrDecode s m = ((segsText r.segs).length,
        layout (gapAt r.segs 0) (segsBytes r.segs ++ staleQuad (segsBytes r.segs) m os) m) := by
  obtain ⟨h6, hu, -⟩ := ht.quad hdot
  obtain ⟨t, hend⟩ := dot_ending hdot
  have hne := quad_segs hu
  obtain ⟨j, hj⟩ := scan_segments hr ht.passes hm
  have hroom := segs_room ht.passes
  have hlt := length_lt hr hdot hlen
  rw [← drop_segPos hr hne] at hq
  obtain ⟨i, hi⟩ := ip6_stale_end (o := (0, m)) (m := m) (w := segsBytes r.segs)
    (z := gapAt r.segs 0) (n := r.segs.length)
    ((drop_segs hr).trans hend) hr.last ht.last h6 hq gap_within hm (by omega)
  rw [verdict_taken (fun h => by rw [hu h]), segPos, if_neg hne] at hi
  rw [segPos, if_neg hne] at hj
  have hback : ((segsText r.segs).length+1+sizeMax) % 2^64 = (segsText r.segs).length := by
    simp only [sizeMax]
    omega
  rw [hback] at hi
  exact ip6StrDecode_done (hj.ends hi)

/-- A dotted end without segments gives two groups at most. -/
theorem bare_refused (hr : Reads s r) (hs : r.segs = []) (hl : r.last.length ≤ 4)
    (hdot : r.rest.head? = some 46) (hlen : s.length < 2^64) (hm : m.length = 16) :
    (ip6StrDecode s m).1 = 0 := by
  obtain ⟨t, hend⟩ := dot_ending hdot
  have htext := drop_segs hr
  rw [hs, hend] at htext
  have hz : ∀ i ∈ (none : Option ℕ), i ≤ ([] : Bytes).length := nofun
  rcases ip4_cases s m (by omega) with ⟨m', hzero⟩ | ⟨os, hover⟩ | ⟨os, k, hfront⟩
  · have hq : ¬((∃ os k, QuadFront s os k) ∨ ∃ os, Overlong s os) := by
      rintro (⟨os, k, hq⟩ | ⟨os, hq⟩)
      · have := hq.le
        rw [ip4StrDecode_front hq (by omega)] at hzero
        cases hzero
        omega
      · rw [ip4StrDecode_overlong hq (by omega)] at hzero
        cases hzero
    obtain ⟨j, m', hj⟩ := ip6_dot_refused (o := (0, m)) (m := m) (w := []) (z := none) (n := 0)
      (e := 0) htext hr.last hl (by omega) hm (by simp) (fun h => hq h.2)
    rw [ip6StrDecode_done hj]
  · obtain ⟨j, hj⟩ := ip6_stale_end (o := (0, m)) (m := m) (w := []) (z := none) (n := 0)
      (e := 0) htext hr.last hl (by omega) hover hz hm (by simp)
    rw [ip6StrDecode_done hj]
    rfl
  · obtain ⟨j, hj⟩ := ip6_quad_end (o := (0, m)) (m := m) (w := []) (z := none) (n := 0)
      (e := 0) htext hr.last hl (by omega) hfront hlen hz hm (by simp)
    rw [ip6StrDecode_done hj]
    rfl

theorem dot_refused (hr : Reads s r) (hp : Passes r.segs 0 false) (hl : r.last.length ≤ 4)
    (hdot : r.rest.head? = some 46) (hlen : s.length < 2^64) (hm : m.length = 16)
    (h : ¬(r.segs.length ≤ 6 ∧ (Undoubled r.segs → r.segs.length = 6) ∧
      ((∃ os n, QuadFront (r.ending.drop 1) os n) ∨ ∃ os, Overlong (r.ending.drop 1) os))) :
    (ip6StrDecode s m).1 = 0 := by
  by_cases hne : r.segs = []
  · exact bare_refused hr hne hl hdot hlen hm
  obtain ⟨t, hend⟩ := dot_ending hdot
  obtain ⟨j, hj⟩ := scan_segments hr hp hm
  have hroom := segs_room hp
  have htext := (drop_segs hr).trans hend
  have hlt := length_lt hr hdot hlen
  have hpos : segPos r.segs < 2^64 := by
    rw [segPos, if_neg hne]
    exact hlt
  rw [← drop_segPos hr hne] at h
  by_cases hq : r.segs.length ≤ 6 ∧ ((∃ os k, QuadFront (s.drop (segPos r.segs)) os k) ∨
      ∃ os, Overlong (s.drop (segPos r.segs)) os)
  · have hu : ¬(Undoubled r.segs → r.segs.length+2 = 8) := fun hu =>
      h ⟨hq.1, fun hun => by have := hu hun; omega, hq.2⟩
    rcases hq.2 with ⟨os, k, hfront⟩ | ⟨os, hover⟩
    · obtain ⟨i, hi⟩ := ip6_quad_end (o := (0, m)) (m := m) (w := segsBytes r.segs)
        (z := gapAt r.segs 0) (n := r.segs.length) htext hr.last hl hq.1 hfront hlen gap_within hm
          (by omega)
      rw [ip6StrDecode_done (hj.ends hi), verdict_refused hu]
    · obtain ⟨i, hi⟩ := ip6_stale_end (o := (0, m)) (m := m) (w := segsBytes r.segs)
        (z := gapAt r.segs 0) (n := r.segs.length) htext hr.last hl hq.1 hover gap_within hm
          (by omega)
      rw [ip6StrDecode_done (hj.ends hi), verdict_refused hu]
  · obtain ⟨i, m', hi⟩ := ip6_dot_refused (o := (0, m)) (m := m) (w := segsBytes r.segs)
      (z := gapAt r.segs 0) htext hr.last hl hpos hm (by omega) hq
    rw [ip6StrDecode_done (hj.ends hi)]

/-- Every other text is refused. -/
theorem not_taken (hr : Reads s r) (ht : ¬Taken r) (hlen : s.length < 2^64) (hm : m.length = 16) :
    (ip6StrDecode s m).1 = 0 := by
  by_cases hp : Passes r.segs 0 false
  · by_cases hl : r.last.length ≤ 4
    · by_cases hdot : r.rest.head? = some 46
      · refine dot_refused hr hp hl hdot hlen hm fun hq => ht ⟨hp, hl, ?_, fun _ => hq⟩
        exact fun h => absurd hdot h
      · rw [plain_result hr hp hl hdot hm]
        refine verdict_refused fun hu => ht ⟨hp, hl, fun _ => hu, ?_⟩
        exact fun h => absurd h hdot
    · obtain ⟨j, hj⟩ := scan_segments hr hp hm
      obtain ⟨i, hi⟩ := ip6_fifth (o := (0, m)) (m := m) (w := segsBytes r.segs)
        (z := gapAt r.segs 0) (n := r.segs.length) (e := segPos r.segs) (drop_segs hr) hr.last
          (by omega)
      rw [ip6StrDecode_done (hj.ends hi)]
  · obtain ⟨j, m', hj⟩ := ip6_passes_not (o := (0, m)) (m := m) (w := []) (z := none) (n := 0)
      (e := 0) (p := 0) (show s.drop 0 = _ from hr.text) hr.segs hr.spaced hp hm (by simp)
    rw [ip6StrDecode_done hj]

end Whole

end DnsPkt.AddressScan
