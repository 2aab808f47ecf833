import DnsPkt.AddressText

/-!
# Texts between colons

A text of hexadecimal digits and colons is taken apart at its colons, from the
left, two colons next to each other being one mark. Every text has exactly one
reading: its segments, the digits behind the last colon, and the rest, which
begins with neither a digit nor a colon.
-/

set_option autoImplicit false

namespace DnsPkt.ColonText
open DnsPkt.Octets DnsPkt.AddressText

structure Segment where
  digits : Bytes
  double : Bool
  deriving DecidableEq

def Segment.text (u : Segment) : Bytes := u.digits ++ 58 :: (if u.double then [58] else [])

def segsText (us : List Segment) : Bytes := us.flatMap Segment.text

structure Reading where
  segs : List Segment
  last : Bytes
  rest : Bytes

def Reading.ending (r : Reading) : Bytes := r.last ++ r.rest

def Spaced : List Segment → Bytes → Prop
  | [], _ => True
  | u :: us, t => (u.double = false → (segsText us ++ t).head? ≠ some 58) ∧ Spaced us t

structure Reads (s : Bytes) (r : Reading) : Prop where
  text : s = segsText r.segs ++ r.ending
  segs : ∀ u ∈ r.segs, ∀ ch ∈ u.digits, isHex ch = true
  last : ∀ ch ∈ r.last, isHex ch = true
  spaced : Spaced r.segs r.ending
  stop : ∀ ch ∈ r.rest.head?, isHex ch = false ∧ ch ≠ 58

theorem colon_not_hex : isHex 58 = false := rfl

theorem dot_not_hex : isHex 46 = false := rfl

theorem segsText_cons (u : Segment) (us : List Segment) :
    segsText (u :: us) = u.digits ++ 58 :: ((if u.double then [58] else []) ++ segsText us) := by
  simp [segsText, Segment.text]

theorem segsText_append (us vs : List Segment) :
    segsText (us ++ vs) = segsText us ++ segsText vs := by
  simp [segsText]

theorem spaced_append {us vs : List Segment} {t : Bytes} :
    Spaced (us ++ vs) t ↔ Spaced us (segsText vs ++ t) ∧ Spaced vs t := by
  induction us with
  | nil => simp [Spaced]
  | cons u us ih =>
    simp only [List.cons_append, Spaced, ih, segsText_append, List.append_assoc, and_assoc]

/-- Only the first character behind the segments matters. -/
theorem Spaced.congr {us : List Segment} {t t' : Bytes} (h : Spaced us t)
    (hhead : t.head? = t'.head?) : Spaced us t' := by
  induction us with
  | nil => trivial
  | cons u us ih =>
    refine ⟨fun hd => ?_, ih h.2⟩
    have hne := h.1 hd
    rwa [List.head?_append, hhead, ← List.head?_append] at hne

theorem span_unique {a b x y : Bytes} (ha : ∀ ch ∈ a, isHex ch = true)
    (hb : ∀ ch ∈ b, isHex ch = true) (hx : ∀ ch ∈ x.head?, isHex ch = false)
    (hy : ∀ ch ∈ y.head?, isHex ch = false) (h : a ++ x = b ++ y) : a = b ∧ x = y := by
  induction a generalizing b with
  | nil =>
    cases b with
    | nil => exact ⟨rfl, h⟩
    | cons c b =>
      rw [List.nil_append] at h
      have hc := hx c (by rw [h]; rfl)
      rw [hb c (by simp)] at hc
      cases hc
  | cons c a ih =>
    cases b with
    | nil =>
      rw [List.nil_append] at h
      have hc := hy c (by rw [← h]; rfl)
      rw [ha c (by simp)] at hc
      cases hc
    | cons d b =>
      rw [List.cons_append, List.cons_append, List.cons.injEq] at h
      obtain ⟨rfl, hrest⟩ := h
      obtain ⟨rfl, hxy⟩ := ih (fun ch hch => ha ch (by simp [hch]))
        (fun ch hch => hb ch (by simp [hch]))
        hrest
      exact ⟨rfl, hxy⟩

theorem Reads.ending_stop {s : Bytes} {r : Reading} (h : Reads s r) :
    ∀ ch ∈ r.rest.head?, isHex ch = false := fun ch hch => (h.stop ch hch).1

/-- A reading without segments is no reading with one. -/
theorem Reads.not_colon {s : Bytes} {r : Reading} (h : Reads s r) (hs : r.segs = [])
    {ds t : Bytes} (hds : ∀ ch ∈ ds, isHex ch = true) (ht : s = ds ++ 58 :: t) : False := by
  have htext := h.text
  rw [hs, segsText, List.flatMap_nil, List.nil_append, Reading.ending, ht] at htext
  obtain ⟨-, hrest⟩ := span_unique hds h.last (by simp [colon_not_hex]) h.ending_stop htext
  exact (h.stop 58 (by rw [← hrest]; rfl)).2 rfl

theorem reads_unique {s : Bytes} {r r' : Reading} (h : Reads s r) (h' : Reads s r') : r = r' := by
  obtain ⟨us, last, rest⟩ := r
  obtain ⟨us', last', rest'⟩ := r'
  induction us generalizing s us' with
  | nil =>
    cases us' with
    | nil =>
      obtain ⟨rfl, rfl⟩ := span_unique h.last h'.last h.ending_stop h'.ending_stop
        (h.text.symm.trans h'.text)
      rfl
    | cons u us' =>
      have htext := h'.text
      rw [segsText_cons, List.append_assoc, List.cons_append] at htext
      exact (h.not_colon rfl (h'.segs u (by simp)) htext).elim
  | cons u us ih =>
    have htext := h.text
    rw [segsText_cons, List.append_assoc, List.cons_append] at htext
    cases us' with
    | nil => exact (h'.not_colon rfl (h.segs u (by simp)) htext).elim
    | cons u' us' =>
      have htext' := h'.text
      rw [segsText_cons, List.append_assoc, List.cons_append] at htext'
      obtain ⟨hdigits, hrest⟩ := span_unique (h.segs u (by simp)) (h'.segs u' (by simp))
        (by simp [colon_not_hex]) (by simp [colon_not_hex]) (htext.symm.trans htext')
      rw [List.cons.injEq, List.append_assoc, List.append_assoc] at hrest
      have hdouble : u.double = u'.double := by
        cases hd : u.double with
        | true =>
          cases hd' : u'.double with
          | true => rfl
          | false =>
            simp only [hd, hd', ↓reduceIte, Bool.false_eq_true, List.nil_append,
              List.singleton_append] at hrest
            exact absurd (by rw [← hrest.2]; rfl) (h'.spaced.1 hd')
        | false =>
          cases hd' : u'.double with
          | false => rfl
          | true =>
            simp only [hd, hd', ↓reduceIte, Bool.false_eq_true, List.nil_append,
              List.singleton_append] at hrest
            exact absurd (by rw [hrest.2]; rfl) (h.spaced.1 hd)
      have hu : u = u' := by
        cases u
        cases u'
        simp only at hdigits hdouble
        rw [hdigits, hdouble]
      subst hu
      have htail := List.append_cancel_left hrest.2
      have hmid : Reads (segsText us ++ (last ++ rest)) ⟨us, last, rest⟩ :=
        ⟨rfl, fun v hv => h.segs v (by simp [hv]), h.last, h.spaced.2, h.stop⟩
      have hmid' : Reads (segsText us ++ (last ++ rest)) ⟨us', last', rest'⟩ :=
        ⟨htail, fun v hv => h'.segs v (by simp [hv]), h'.last, h'.spaced.2, h'.stop⟩
      have heq := ih hmid us' hmid'
      rw [Reading.mk.injEq] at heq ⊢
      exact ⟨by rw [heq.1], heq.2⟩

/-- A segment in front of a text that has a reading. -/
theorem Reads.cons {s : Bytes} {r : Reading} (h : Reads s r) {ds : Bytes} {d : Bool}
    (hds : ∀ ch ∈ ds, isHex ch = true) (hd : d = false → s.head? ≠ some 58) :
    Reads (ds ++ 58 :: ((if d then [58] else []) ++ s)) ⟨⟨ds, d⟩ :: r.segs, r.last, r.rest⟩ where
  text := by
    rw [segsText_cons, List.append_assoc, List.cons_append, List.append_assoc]
    congr 3
    exact h.text
  segs u hu := by
    rcases List.mem_cons.mp hu with rfl | hu
    · exact hds
    · exact h.segs u hu
  last := h.last
  spaced := ⟨fun hfalse => by
    have hne := hd hfalse
    rwa [h.text] at hne, h.spaced⟩
  stop := h.stop

theorem reads_total (s : Bytes) : ∃ r, Reads s r := by
  induction hn : s.length using Nat.strong_induction_on generalizing s with
  | _ n ih =>
    have hspan : s.takeWhile isHex ++ s.dropWhile isHex = s := List.takeWhile_append_dropWhile
    have hds : ∀ ch ∈ s.takeWhile isHex, isHex ch = true := fun ch hch => List.mem_takeWhile_imp hch
    have hstop : ∀ ch ∈ (s.dropWhile isHex).head?, isHex ch = false := by
      intro ch hch
      have := List.head?_dropWhile_not isHex s
      rw [Option.mem_def.mp hch] at this
      simpa using this
    have hlen := congrArg List.length hspan
    rw [List.length_append, hn] at hlen
    cases hrest : s.dropWhile isHex with
    | nil =>
      rw [hrest, List.append_nil] at hspan
      exact ⟨⟨[], s.takeWhile isHex, []⟩, by
        rw [hspan]
        exact ⟨by simp [segsText, Reading.ending], by simp, by rwa [hspan] at hds, trivial,
          by simp⟩⟩
    | cons c t =>
      rw [hrest] at hspan hstop hlen
      rw [List.length_cons] at hlen
      by_cases hc : c = 58
      · subst hc
        by_cases hnext : t.head? = some 58
        · obtain ⟨t', rfl⟩ : ∃ t', t = 58 :: t' := by
            cases t with
            | nil => cases hnext
            | cons d t' =>
              injection hnext with hd
              exact ⟨t', by rw [hd]⟩
          rw [List.length_cons] at hlen
          obtain ⟨r, hr⟩ := ih t'.length (by omega) t' rfl
          exact ⟨_, by
            have := hr.cons (d := true) hds (by simp)
            simp only [↓reduceIte, List.singleton_append] at this
            rwa [hspan] at this⟩
        · obtain ⟨r, hr⟩ := ih t.length (by omega) t rfl
          exact ⟨_, by
            have := hr.cons (d := false) hds fun _ => hnext
            simp only [Bool.false_eq_true, ↓reduceIte, List.nil_append] at this
            rwa [hspan] at this⟩
      · refine ⟨⟨[], s.takeWhile isHex, c :: t⟩, ?_, by simp, hds, trivial, ?_⟩
        · simp only [segsText, List.flatMap_nil, List.nil_append, Reading.ending]
          exact hspan.symm
        · intro ch hch
          cases hch
          exact ⟨hstop c rfl, hc⟩

end DnsPkt.ColonText
