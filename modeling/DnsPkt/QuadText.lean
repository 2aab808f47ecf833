import DnsPkt.MixedNotation

/-!
# Texts that are read as dotted quads

What `ip4_str_decode` makes of any text. It reads four octets with dots between
them from the front of the text and takes one character more, if there is one.
A fourth digit in a row makes it return −1, and everything else is refused.
-/

set_option autoImplicit false

namespace DnsPkt.QuadText
open DnsPkt.Octets DnsPkt.StepMachine DnsPkt.AddressText DnsPkt.AddressRoundTrip

def IsOctet (ds : Bytes) : Prop :=
  ds ≠ [] ∧ ds.length ≤ 3 ∧ (∀ ch ∈ ds, isNumeral ch = true) ∧ decimalOf 0 ds ≤ 255

def octetOf (ds : Bytes) : UInt8 := UInt8.ofNat (decimalOf 0 ds)

def dotted (os : List Bytes) : Bytes := os.flatMap (· ++ [46])

/-- The front of a text that is read as the octets `os`, of `n` characters. -/
def QuadFront (t : Bytes) (os : List Bytes) (n : ℕ) : Prop :=
  ∃ first last rest, os = first ++ [last] ∧ first.length = 3 ∧ (∀ o ∈ os, IsOctet o) ∧
    t = dotted first ++ last ++ rest ∧ n = (dotted first ++ last ++ rest.take 1).length ∧
    ∀ ch ∈ rest.head?, isNumeral ch = false ∧ ch ≠ 46

/-- The octets `os` in front of four digits, the first three of which are small. -/
def Overlong (t : Bytes) (os : List Bytes) : Prop :=
  ∃ ds ch rest, os.length ≤ 3 ∧ (∀ o ∈ os, IsOctet o) ∧ IsOctet ds ∧ ds.length = 3 ∧
    isNumeral ch = true ∧ t = dotted os ++ ds ++ ch :: rest

theorem ip4_counts (str : Bytes) (s t : Ip4Scan) (h : ip4Step str s = .next t) :
    t.strEnd-t.strPtr < s.strEnd-s.strPtr := by
  simp only [ip4Step] at h
  split_ifs at h <;> cases h <;> simp only [] <;> omega

/-- The run of the decoder from a turn count that is not known. -/
theorem ip4StrDecode_ends {str m : Bytes} {r : ℕ × Bytes} {j : ℕ}
    (h : Ends (ip4Step str) (0, m) j (between str m [] 0) r) : ip4StrDecode str m = r := by
  rw [between, patch_nil] at h
  exact h.enough (ip4_counts str) (by simp only []; omega)

section Scan

variable {str rest : Bytes} {o : ℕ × Bytes} {p q n k a : ℕ} {m w : Bytes}

theorem ip4_over (ds : Bytes) (hs : str.drop p = ds ++ rest)
    (hn : ∀ ch ∈ ds, isNumeral ch = true) (hd : n+ds.length ≤ 3) (ha : a ≤ 255)
    (hv : 255 < decimalOf a ds) :
    ∃ j, Ends (ip4Step str) o j ⟨p, str.length, m, q, n, k, a⟩ (0, m) := by
  induction ds generalizing p n a with
  | nil =>
    simp only [decimalOf, List.foldl_nil] at hv
    omega
  | cons ch ds ih =>
    rw [List.length_cons] at hd
    have hstep := ip4Step_numeral (m := m) (q := q) (k := k) (a := a) hs (hn ch (by simp))
      (show n < 3 by omega)
    by_cases hbig : 255 < a*10+(ch.toNat-48)
    · rw [if_pos hbig] at hstep
      exact ⟨1, ends_done hstep⟩
    · rw [if_neg hbig] at hstep
      obtain ⟨j, hj⟩ := ih (a := a*10+(ch.toNat-48)) (drop_reads hs).2.2
        (fun c hc => hn c (by simp [hc])) (show n+1+ds.length ≤ 3 by omega) (by omega) hv
      exact ⟨j+1, (leads_next hstep).ends hj⟩

/-- Behind the digits of an octet. -/
theorem ip4_behind (ds : Bytes) (hs : str.drop p = ds ++ rest)
    (hn : ∀ ch ∈ ds, isNumeral ch = true) (hd : ds.length ≤ 3) (hv : decimalOf 0 ds ≤ 255) :
    Leads (ip4Step str) o ds.length (between str m w p)
      ⟨p+ds.length, str.length, patch m 0 w, w.length, ds.length, w.length, decimalOf 0 ds⟩ := by
  have h := ip4_digits (o := o) (m := patch m 0 w) (q := w.length) (k := w.length) (n := 0)
    (a := 0) ds hs hn (by omega) hv
  rwa [Nat.zero_add] at h

theorem ip4_fourth (ds : Bytes) {ch : UInt8} (hs : str.drop p = ds ++ ch :: rest)
    (ho : IsOctet ds) (hd : ds.length = 3) (hch : isNumeral ch = true) :
    ∃ j, Ends (ip4Step str) o j (between str m w p) (sizeMax, patch m 0 w) := by
  obtain ⟨hp, hc, -⟩ := drop_reads (drop_skips hs)
  refine ⟨_, (ip4_behind ds hs ho.2.2.1 (by omega) ho.2.2.2).ends (ends_done ?_)⟩
  simp only [ip4Step]
  rw [if_pos hp, hc, if_pos hch, if_pos (by omega)]

/-- A dot that does not end one of the first three octets. -/
theorem ip4_misplaced (ds : Bytes) (hs : str.drop p = ds ++ 46 :: rest)
    (hn : ∀ ch ∈ ds, isNumeral ch = true) (hd : ds.length ≤ 3) (hv : decimalOf 0 ds ≤ 255)
    (hbad : ds = [] ∨ 3 ≤ w.length) :
    ∃ j, Ends (ip4Step str) o j (between str m w p) (0, patch m 0 w) := by
  refine ⟨_, (ip4_behind ds hs hn hd hv).ends (ends_done ?_)⟩
  rw [ip4Step_dot (drop_skips hs), if_pos]
  exact hbad.imp (fun h => by rw [h]; rfl) id

/-- The end of the octets: the end of the text or a character of no use. -/
theorem ip4_stop (ds : Bytes) (hs : str.drop p = ds ++ rest)
    (hn : ∀ ch ∈ ds, isNumeral ch = true) (hd : ds.length ≤ 3) (hv : decimalOf 0 ds ≤ 255)
    (hp : p ≤ str.length) (hr : ∀ ch ∈ rest.head?, isNumeral ch = false ∧ ch ≠ 46) :
    ∃ j, Ends (ip4Step str) o j (between str m w p)
      (if w.length ≠ 3 ∨ ds = [] then (0, patch m 0 w)
        else (p+ds.length+(rest.take 1).length,
          patch (patch m 0 w) w.length [octetOf ds])) := by
  have hnil : ds.length = 0 ↔ ds = [] := List.length_eq_zero_iff
  cases rest with
  | nil =>
    have hlen : str.length = p+ds.length := by
      have := congrArg List.length hs
      rw [List.length_drop, List.append_nil] at this
      omega
    refine ⟨_, (ip4_behind ds hs hn hd hv).ends (ends_done ?_)⟩
    rw [ip4Step, if_neg (by simp only []; omega), Ip4Scan.finish]
    simp only [hnil]
    split_ifs <;> rfl
  | cons ch rest =>
    obtain ⟨hn', hdot⟩ := hr ch (by simp)
    obtain ⟨hlt, hc, -⟩ := drop_reads (drop_skips hs)
    have hstep : ip4Step str ⟨p+ds.length, str.length, patch m 0 w, w.length, ds.length, w.length,
        decimalOf 0 ds⟩ = .next ⟨p+ds.length+1, 0, patch m 0 w, w.length, ds.length, w.length,
          decimalOf 0 ds⟩ := by
      simp only [ip4Step]
      rw [if_pos hlt, hc, if_neg (by simp [hn']), if_neg hdot]
    refine ⟨_, (ip4_behind ds hs hn hd hv).ends ((leads_next hstep).ends (ends_done ?_))⟩
    rw [ip4Step, if_neg (by simp), Ip4Scan.finish]
    simp only [hnil]
    split_ifs <;> rfl

/-- What a run does with the digits at its front, and with what is behind them. -/
theorem octet_cases (t : Bytes) :
    (∃ ds rest, t = ds ++ rest ∧ (∀ ch ∈ ds, isNumeral ch = true) ∧ ds.length ≤ 3 ∧
        255 < decimalOf 0 ds) ∨
      (∃ ds ch rest, t = ds ++ ch :: rest ∧ IsOctet ds ∧ ds.length = 3 ∧ isNumeral ch = true) ∨
      ∃ ds rest, t = ds ++ rest ∧ (∀ ch ∈ ds, isNumeral ch = true) ∧ ds.length ≤ 3 ∧
        decimalOf 0 ds ≤ 255 ∧ ∀ ch ∈ rest.head?, isNumeral ch = false := by
  set ds := t.takeWhile isNumeral with hds
  have hn : ∀ ch ∈ ds, isNumeral ch = true := fun ch hch => List.mem_takeWhile_imp hch
  have ht : t = ds ++ t.dropWhile isNumeral := (List.takeWhile_append_dropWhile).symm
  have hn3 : ∀ ch ∈ ds.take 3, isNumeral ch = true := fun ch hch => hn ch (List.mem_of_mem_take hch)
  have h3 : (ds.take 3).length ≤ 3 := by rw [List.length_take]; omega
  by_cases hv : 255 < decimalOf 0 (ds.take 3)
  · refine .inl ⟨ds.take 3, ds.drop 3 ++ t.dropWhile isNumeral, ?_, hn3, h3, hv⟩
    rw [← List.append_assoc, List.take_append_drop, ← ht]
  by_cases hd : ds.length ≤ 3
  · rw [List.take_of_length_le hd] at hv
    refine .inr (.inr ⟨ds, t.dropWhile isNumeral, ht, hn, hd, by omega, fun ch hch => ?_⟩)
    have := List.head?_dropWhile_not isNumeral t
    rw [Option.mem_def.mp hch] at this
    simpa using this
  · have hne : ds.drop 3 ≠ [] := by rw [Ne, List.drop_eq_nil_iff]; omega
    obtain ⟨ch, tl, hcons⟩ := List.exists_cons_of_ne_nil hne
    have hlen : (ds.take 3).length = 3 := by rw [List.length_take]; omega
    refine .inr (.inl ⟨ds.take 3, ch, tl ++ t.dropWhile isNumeral, ?_,
      ⟨List.ne_nil_of_length_pos (by omega), h3, hn3, by omega⟩, hlen,
      hn ch (List.mem_of_mem_drop (by rw [hcons]; simp))⟩)
    rw [← List.cons_append, ← hcons, ← List.append_assoc, List.take_append_drop, ← ht]

theorem dotted_cons (ds : Bytes) (os : List Bytes) : dotted (ds :: os) = ds ++ 46 :: dotted os := by
  simp [dotted]

theorem dotted_append (os os' : List Bytes) : dotted (os ++ os') = dotted os ++ dotted os' := by
  simp [dotted]

/-- Octets with their dots are stored one after another. -/
theorem ip4_octets (os : List Bytes) (hs : str.drop p = dotted os ++ rest)
    (ho : ∀ ds ∈ os, IsOctet ds) (hw : w.length+os.length ≤ 3) (hm : 4 ≤ m.length) :
    ∃ j, Leads (ip4Step str) o j (between str m w p)
      (between str m (w ++ os.map octetOf) (p+(dotted os).length)) := by
  induction os generalizing p w with
  | nil =>
    refine ⟨0, ?_⟩
    rw [List.map_nil, List.append_nil]
    exact fun k => rfl
  | cons ds os ih =>
    rw [List.length_cons] at hw
    rw [dotted_cons, List.append_assoc, List.cons_append] at hs
    obtain ⟨h0, hd, hn, hv⟩ := ho ds (by simp)
    have h1 := ip4_octet (o := o) (m := m) ds w hs h0 hn hd hv (by omega) hm
    obtain ⟨j, hj⟩ := ih (w := w ++ [octetOf ds]) (drop_after hs) (fun x hx => ho x (by simp [hx]))
      (by rw [List.length_append, List.length_singleton]; omega)
    rw [List.append_assoc, show p+ds.length+1+(dotted os).length =
      p+(ds.length+((dotted os).length+1)) by omega] at hj
    refine ⟨j+(1+ds.length), ?_⟩
    rw [List.map_cons, dotted_cons, List.length_append, List.length_cons]
    exact h1.trans hj

end Scan

section Whole

variable {t m : Bytes} {os : List Bytes} {n : ℕ}

theorem ip4_octets_front {rest : Bytes} (hs : t = dotted os ++ rest)
    (ho : ∀ ds ∈ os, IsOctet ds) (hw : os.length ≤ 3) (hm : 4 ≤ m.length) :
    ∃ j, Leads (ip4Step t) (0, m) j (between t m [] 0)
        (between t m (os.map octetOf) (dotted os).length) ∧
      t.drop (dotted os).length = rest := by
  have hs0 : t.drop 0 = dotted os ++ rest := hs
  obtain ⟨j, hj⟩ := ip4_octets (o := (0, m)) (w := []) os hs0 ho (by simpa using hw) hm
  rw [Nat.zero_add, List.nil_append] at hj
  exact ⟨j, hj, by rw [hs, List.drop_left]⟩

theorem ip4StrDecode_overlong (h : Overlong t os) (hm : 4 ≤ m.length) :
    ip4StrDecode t m = (sizeMax, patch m 0 (os.map octetOf)) := by
  obtain ⟨ds, ch, rest, hl, ho, hds, hd, hch, rfl⟩ := h
  obtain ⟨j, hj, hs⟩ := ip4_octets_front (List.append_assoc (dotted os) ds (ch :: rest)) ho hl hm
  obtain ⟨i, hi⟩ := ip4_fourth (o := (0, m)) (m := m) (w := os.map octetOf) ds hs hds hd hch
  exact ip4StrDecode_ends (hj.ends hi)

theorem ip4StrDecode_front (h : QuadFront t os n) (hm : 4 ≤ m.length) :
    ip4StrDecode t m = (n, patch m 0 (os.map octetOf)) := by
  obtain ⟨first, last, rest, rfl, hl, ho, rfl, rfl, hr⟩ := h
  obtain ⟨j, hj, hs⟩ := ip4_octets_front (List.append_assoc (dotted first) last rest)
    (fun x hx => ho x (by simp [hx])) (show first.length ≤ 3 by omega) hm
  obtain ⟨h0, hd, hn, hv⟩ := ho last (by simp)
  obtain ⟨i, hi⟩ := ip4_stop (o := (0, m)) (m := m) (w := first.map octetOf) last hs hn hd hv
    (by simp) hr
  have hpatch := patch_patch m 0 (first.map octetOf) [octetOf last] (by simp; omega)
  rw [Nat.zero_add] at hpatch
  rw [if_neg (by simp [hl, h0]), hpatch] at hi
  rw [ip4StrDecode_ends (hj.ends hi)]
  simp [Nat.add_assoc]

/-- The octets end, and what is behind them is no dot. -/
theorem ip4_ended {ds rest : Bytes} (hs : t = dotted os ++ (ds ++ rest))
    (ho : ∀ ds ∈ os, IsOctet ds) (hl : os.length ≤ 3) (hn : ∀ ch ∈ ds, isNumeral ch = true)
    (hd : ds.length ≤ 3) (hv : decimalOf 0 ds ≤ 255)
    (hr : ∀ ch ∈ rest.head?, isNumeral ch = false ∧ ch ≠ 46) (hm : 4 ≤ m.length) :
    (∃ m', ip4StrDecode t m = (0, m')) ∨ ∃ os n, QuadFront t os n := by
  by_cases hbad : os.length ≠ 3 ∨ ds = []
  · obtain ⟨j, hj, hdrop⟩ := ip4_octets_front hs ho hl hm
    obtain ⟨i, hi⟩ := ip4_stop (o := (0, m)) (m := m) (w := os.map octetOf) ds hdrop hn hd hv
      (by rw [hs, List.length_append]; omega) hr
    rw [if_pos (by simpa using hbad)] at hi
    exact .inl ⟨_, ip4StrDecode_ends (hj.ends hi)⟩
  · obtain ⟨h3, h0⟩ := not_or.mp hbad
    refine .inr ⟨os ++ [ds], _, os, ds, rest, rfl, by omega, ?_, ?_, rfl, hr⟩
    · intro x hx
      rcases List.mem_append.mp hx with hx | hx
      · exact ho x hx
      · rw [List.mem_singleton.mp hx]
        exact ⟨h0, hd, hn, hv⟩
    · rw [hs, List.append_assoc]

/-- Behind some octets a text is refused, is one of the two kinds, or goes on with an octet. -/
theorem ip4_onwards {rest : Bytes} (hs : t = dotted os ++ rest) (ho : ∀ ds ∈ os, IsOctet ds)
    (hl : os.length ≤ 3) (hm : 4 ≤ m.length) :
    ((∃ m', ip4StrDecode t m = (0, m')) ∨ (∃ os, Overlong t os) ∨ ∃ os n, QuadFront t os n) ∨
      ∃ ds tl, t = dotted (os ++ [ds]) ++ tl ∧ IsOctet ds ∧ os.length < 3 := by
  obtain ⟨j, hj, hdrop⟩ := ip4_octets_front hs ho hl hm
  rcases octet_cases rest with ⟨ds, tl, hr, hn, hlen, hv⟩ | ⟨ds, ch, tl, hr, hds, hlen, hch⟩ |
      ⟨ds, tl, hr, hn, hlen, hv, hstop⟩
  · obtain ⟨i, hi⟩ := ip4_over (o := (0, m)) (m := patch m 0 (os.map octetOf))
      (q := (os.map octetOf).length) (n := 0) (k := (os.map octetOf).length) (a := 0) ds
      (hdrop.trans hr) hn (by omega) (by omega) hv
    exact .inl (.inl ⟨_, ip4StrDecode_ends (hj.ends hi)⟩)
  · exact .inl (.inr (.inl ⟨os, ds, ch, tl, hl, ho, hds, hlen, hch,
      by rw [hs, hr, List.append_assoc]⟩))
  by_cases hdot : tl.head? = some 46
  · obtain ⟨tl, rfl⟩ := List.head?_eq_some_iff.mp hdot
    by_cases hbad : ds = [] ∨ 3 ≤ os.length
    · obtain ⟨i, hi⟩ := ip4_misplaced (o := (0, m)) (m := m) (w := os.map octetOf) ds
        (hdrop.trans hr) hn hlen hv (by simpa using hbad)
      exact .inl (.inl ⟨_, ip4StrDecode_ends (hj.ends hi)⟩)
    · obtain ⟨h0, h3⟩ := not_or.mp hbad
      refine .inr ⟨ds, tl, ?_, ⟨h0, hlen, hn, hv⟩, by omega⟩
      rw [hs, hr, dotted_append, dotted_cons]
      simp [dotted]
  · have hr' : ∀ ch ∈ tl.head?, isNumeral ch = false ∧ ch ≠ 46 := by
      intro ch hch
      refine ⟨hstop ch hch, ?_⟩
      rintro rfl
      exact hdot hch
    exact .inl ((ip4_ended (hs.trans (by rw [hr])) ho hl hn hlen hv hr' hm).imp_right .inr)

/-- Every text that is not refused is one of the two kinds. -/
theorem ip4_cases (t m : Bytes) (hm : 4 ≤ m.length) :
    (∃ m', ip4StrDecode t m = (0, m')) ∨ (∃ os, Overlong t os) ∨ ∃ os n, QuadFront t os n := by
  have hfrom : ∀ k os rest, os.length+k = 3 → t = dotted os ++ rest → (∀ ds ∈ os, IsOctet ds) →
      (∃ m', ip4StrDecode t m = (0, m')) ∨ (∃ os, Overlong t os) ∨ ∃ os n, QuadFront t os n := by
    intro k
    induction k with
    | zero =>
      intro os rest hk hs ho
      rcases ip4_onwards hs ho (by omega) hm with h | ⟨ds, tl, -, -, hl⟩
      · exact h
      · omega
    | succ k ih =>
      intro os rest hk hs ho
      rcases ip4_onwards hs ho (by omega) hm with h | ⟨ds, tl, ht, hds, hl⟩
      · exact h
      · refine ih (os ++ [ds]) tl (by rw [List.length_append, List.length_singleton]; omega) ht ?_
        intro x hx
        rcases List.mem_append.mp hx with hx | hx
        · exact ho x hx
        · rwa [List.mem_singleton.mp hx]
  exact hfrom 3 [] t rfl rfl (by simp)

/-- A quad takes sixteen characters at most. -/
theorem QuadFront.le (h : QuadFront t os n) : 0 < n ∧ n ≤ 16 := by
  obtain ⟨first, last, rest, rfl, hl, ho, -, rfl, -⟩ := h
  have hdots : ∀ os : List Bytes, (∀ ds ∈ os, IsOctet ds) → (dotted os).length ≤ 4*os.length := by
    intro os
    induction os with
    | nil => simp [dotted]
    | cons ds os ih =>
      intro ho
      have := ih fun x hx => ho x (by simp [hx])
      have hd := (ho ds (by simp)).2.1
      rw [dotted_cons, List.length_append, List.length_cons, List.length_cons]
      omega
  have h1 := hdots first fun x hx => ho x (by simp [hx])
  obtain ⟨h0, hd, -⟩ := ho last (by simp)
  have hpos := List.length_pos_iff.mpr h0
  simp only [List.length_append, List.length_take]
  omega

theorem ip4StrDecode_sizeMax_iff (t m : Bytes) (hm : 4 ≤ m.length) :
    (ip4StrDecode t m).1 = sizeMax ↔ ∃ os, Overlong t os := by
  constructor
  · intro h
    rcases ip4_cases t m hm with ⟨m', hz⟩ | hover | ⟨os, n, hq⟩
    · rw [hz] at h
      simp [sizeMax] at h
    · exact hover
    · have := hq.le
      rw [ip4StrDecode_front hq hm] at h
      simp only [sizeMax] at h
      omega
  · rintro ⟨os, h⟩
    rw [ip4StrDecode_overlong h hm]

end Whole

end DnsPkt.QuadText
