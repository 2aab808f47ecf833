import DnsPkt.AddressScan

/-!
# What an accepted IPv6 text means

A text that is accepted determines the address that is stored, and the address
is the one the text denotes, unless the text is of one of the kinds below. The
scan counts colons, and a colon that stands alone stores nothing. It stops
behind the first character it does not know, and it reads a dotted quad behind
a colon without its first digit.
-/

set_option autoImplicit false

namespace DnsPkt.AddressMeaning
open DnsPkt.Octets DnsPkt.AddressText DnsPkt.AddressRoundTrip DnsPkt.QuadText DnsPkt.ColonText
open DnsPkt.AddressGrammar DnsPkt.AddressScan

/-- Where the text is accepted, two runs store the same, the address that the characters
they have read denote. -/
def Determines (s : Bytes) : Prop :=
  ∀ dst dst' : Ip6Addr, (ip6StrDecode s dst.toList).1 ≠ 0 →
    (ip6StrDecode s dst.toList).2 = (ip6StrDecode s dst'.toList).2 ∧
      Denotes (s.take (ip6StrDecode s dst.toList).1) (ip6StrDecode s dst.toList).2

theorem quadText_four (a b c d : Bytes) :
    quadText [a, b, c, d] = a ++ 46 :: quadText [b, c, d] ∧
      quadText [a, b, c, d] = dotted [a, b, c] ++ d := by
  constructor <;> simp [quadText, dotted, List.intercalate_cons_cons]

theorem mem_quadText {os : List Bytes} (h : IsQuad os) {ch : UInt8} (hch : ch ∈ quadText os) :
    isNumeral ch = true ∨ ch = 46 := by
  obtain ⟨a, b, c, d, rfl⟩ := quad_four h
  have hnum : ∀ o ∈ [a, b, c, d], ∀ ch ∈ o, isNumeral ch = true := fun o ho => (h.2 o ho).2.2.1
  simp only [quadText, List.intercalate_cons_cons, List.intercalate_singleton, List.mem_append,
    List.mem_singleton] at hch
  simp only [List.mem_cons, List.not_mem_nil, or_false, forall_eq_or_imp, forall_eq] at hnum
  obtain ⟨ha, hb, hc, hd⟩ := hnum
  rcases hch with (hch | hch) | (hch | hch) | (hch | hch) | hch
  · exact .inl (ha ch hch)
  · exact .inr hch
  · exact .inl (hb ch hch)
  · exact .inr hch
  · exact .inl (hc ch hch)
  · exact .inr hch
  · exact .inl (hd ch hch)

theorem numeral_hex {ch : UInt8} (h : isNumeral ch = true) : isHex ch = true := by
  rw [isHex, h]
  rfl

/-- A quad behind the last colon, read up to its first dot. -/
theorem quad_ending {s : Bytes} {r : Reading} (hr : Reads s r) {os : List Bytes} (h : IsQuad os)
    (he : r.ending = quadText os) :
    ∃ b c d, os = [r.last, b, c, d] ∧ r.rest = 46 :: quadText [b, c, d] := by
  obtain ⟨a, b, c, d, rfl⟩ := quad_four h
  rw [(quadText_four a b c d).1] at he
  obtain ⟨rfl, hrest⟩ := span_unique hr.last
    (fun ch hch => numeral_hex ((h.2 a (by simp)).2.2.1 ch hch)) hr.ending_stop
    (by simp [dot_not_hex]) he
  exact ⟨b, c, d, rfl, hrest⟩

theorem quadFront_quadText {os : List Bytes} (h : IsQuad os) :
    QuadFront (quadText os) os (quadText os).length := by
  obtain ⟨a, b, c, d, rfl⟩ := quad_four h
  refine ⟨[a, b, c], d, [], rfl, rfl, h.2, ?_, ?_, by simp⟩
  · rw [(quadText_four a b c d).2, List.append_nil]
  · rw [(quadText_four a b c d).2, List.take_nil, List.append_nil]

/-- The octets at the front of a text are what the decoder makes of it. -/
theorem quadFront_octets {t : Bytes} {os os' : List Bytes} {k k' : ℕ} (h : QuadFront t os k)
    (h' : QuadFront t os' k') : os.map octetOf = os'.map octetOf := by
  have hm : (List.replicate 4 (0 : UInt8)).length = 4 := rfl
  have heq := (ip4StrDecode_front h hm.ge).symm.trans (ip4StrDecode_front h' hm.ge)
  have hos := (QuadFront.isQuad h).1
  have hos' := (QuadFront.isQuad h').1
  have hpatch : ∀ x : Bytes, x.length = 4 → patch (List.replicate 4 0) 0 x = x := by
    intro x hx
    rw [patch, List.drop_eq_nil_of_le (by rw [hm]; omega)]
    simp
  have := congrArg Prod.snd heq
  simp only at this
  rwa [hpatch _ (by rw [List.length_map, hos]), hpatch _ (by rw [List.length_map, hos'])] at this

theorem octet_head {o t : Bytes} (h : IsOctet o) : (o ++ t).head? ≠ some 46 := by
  obtain ⟨c, x, rfl⟩ := List.exists_cons_of_ne_nil h.1
  rintro heq
  cases heq
  cases h.2.2.1 46 (by simp)

theorem front_not_dot {t : Bytes} {os : List Bytes} {k : ℕ} (h : QuadFront t os k) :
    t.head? ≠ some 46 := by
  obtain ⟨first, last, rest, rfl, hl, ho, rfl, -⟩ := h
  match first, hl with
  | [a, b, c], _ =>
    rw [dotted_cons, List.append_assoc, List.append_assoc]
    exact octet_head (ho a (by simp))

theorem overlong_not_dot {t : Bytes} {os : List Bytes} (h : Overlong t os) :
    t.head? ≠ some 46 := by
  obtain ⟨ds, ch, rest, -, ho, hds, -, -, rfl⟩ := h
  cases os with
  | nil => exact octet_head hds
  | cons a os =>
    rw [dotted_cons, List.append_assoc, List.append_assoc]
    exact octet_head (ho a (by simp))

theorem decimalOf_cons (ch : UInt8) (ds : Bytes) :
    decimalOf 0 (ch :: ds) = (ch.toNat-48)*10^ds.length+decimalOf 0 ds := by
  have hgen : ∀ (ds : Bytes) (a : ℕ), decimalOf a ds = a*10^ds.length+decimalOf 0 ds := by
    intro ds
    induction ds with
    | nil => simp [decimalOf]
    | cons c ds ih =>
      intro a
      have h1 := ih (a*10+(c.toNat-48))
      have h2 := ih (0*10+(c.toNat-48))
      simp only [decimalOf, List.foldl_cons, List.length_cons] at h1 h2 ⊢
      rw [h1, h2]
      ring
  have := hgen ds (0*10+(ch.toNat-48))
  rw [Nat.zero_mul, Nat.zero_add] at this
  exact (show decimalOf 0 (ch :: ds) = decimalOf (0*10+(ch.toNat-48)) ds from rfl).trans
    (by rw [Nat.zero_mul, Nat.zero_add]; exact this)

theorem octet_tail {ch : UInt8} {ds : Bytes} (h : IsOctet (ch :: ds)) (hne : ds ≠ []) :
    IsOctet ds := by
  obtain ⟨-, hlen, hnum, hval⟩ := h
  rw [decimalOf_cons] at hval
  rw [List.length_cons] at hlen
  exact ⟨hne, by omega, fun c hc => hnum c (by simp [hc]), by omega⟩

/-- An octet keeps its value without its first digit where that is a zero. -/
theorem octetOf_tail {ch : UInt8} {ds : Bytes} (h : IsOctet (ch :: ds)) (hne : ds ≠ []) :
    octetOf ds = octetOf (ch :: ds) ↔ ch = 48 := by
  have htail := (octet_tail h hne).2.2.2
  have hval := h.2.2.2
  have hnum := h.2.2.1 ch (by simp)
  rw [octetOf, octetOf, ← UInt8.toNat_inj, UInt8.toNat_ofNat_of_lt' (by simp [UInt8.size]; omega),
    UInt8.toNat_ofNat_of_lt' (by simp [UInt8.size]; omega), decimalOf_cons]
  have hpos : 0 < 10^ds.length := Nat.pow_pos (by omega)
  have h48 : 48 ≤ ch.toNat := by
    simp only [isNumeral, Bool.and_eq_true, decide_eq_true_eq] at hnum
    exact UInt8.le_iff_toNat_le.mp hnum.1
  constructor
  · intro heq
    have hzero : (ch.toNat-48)*10^ds.length = 0 := by omega
    rcases Nat.mul_eq_zero.mp hzero with h0 | h0
    · exact UInt8.toNat_inj.mp (by simp; omega)
    · omega
  · rintro rfl
    simp

section Whole

variable {s : Bytes} {r : Reading}

theorem passes_undoubled {us : List Segment} {n : ℕ} (h : Passes us n true) : Undoubled us := by
  induction us generalizing n with
  | nil => exact nofun
  | cons u us ih =>
    obtain ⟨ha, hp⟩ := h
    rw [Bool.true_or] at hp
    intro v hv
    rcases List.mem_cons.mp hv with rfl | hv
    · by_contra hd
      exact absurd (ha.2.2 (by simpa using hd)) (by simp)
    · exact ih hp v hv

/-- The scan goes over one double colon at most. -/
theorem passes_once {us : List Segment} {n : ℕ} (h : Passes us n false) : OnceDoubled us := by
  induction us generalizing n with
  | nil => exact .inl nofun
  | cons u us ih =>
    obtain ⟨-, hp⟩ := h
    rw [Bool.false_or] at hp
    cases hd : u.double with
    | true =>
      rw [hd] at hp
      refine .inr ⟨[], u.digits, us, ?_, nofun, passes_undoubled hp⟩
      rw [List.nil_append, ← hd]
    | false =>
      rw [hd] at hp
      rcases ih hp with hu | ⟨vs, ds, ws, rfl, hvs, hws⟩
      · refine .inl fun v hv => ?_
        rcases List.mem_cons.mp hv with rfl | hv
        · exact hd
        · exact hu v hv
      · refine .inr ⟨u :: vs, ds, ws, rfl, fun v hv => ?_, hws⟩
        rcases List.mem_cons.mp hv with rfl | hv
        · exact hd
        · exact hvs v hv

theorem passes_short {us : List Segment} {n : ℕ} {b : Bool} (h : Passes us n b) :
    ∀ u ∈ us, u.digits.length ≤ 4 := by
  induction us generalizing n b with
  | nil => exact nofun
  | cons u us ih =>
    intro v hv
    rcases List.mem_cons.mp hv with rfl | hv
    · exact h.1.1
    · exact ih h.2 v hv

/-- A well-formed text that is taken has eight groups where it has no double colon. -/
theorem taken_size (hr : Reads s r) (ht : Taken r) (hf : Formed r) (hu : Undoubled r.segs) :
    size r = 8 := by
  have hcount : r.segs.countP (fun u => u.digits ≠ []) = r.segs.length :=
    List.countP_eq_length.mpr fun u hmem => by simpa using hf.digits hu u hmem
  rw [size, hcount]
  rcases hf.whole with hrest | ⟨os, hos, he⟩
  · have := ht.plain (by rw [hrest]; simp) hu
    rwa [if_neg (by simp [hrest])]
  · obtain ⟨b, c, d, -, hrest⟩ := quad_ending hr hos he
    have := (ht.quad (by rw [hrest]; rfl)).2.1 hu
    rw [this, if_pos (by rw [hrest]; simp)]

theorem taken_denotes (hr : Reads s r) (ht : Taken r) (hf : Formed r) {v m : Bytes}
    (hv : EndValue r v) (hm : m.length = 16) :
    Denotes s (layout (gapAt r.segs 0) (segsBytes r.segs ++ v) m) :=
  hf.denotes hr (passes_short ht.passes) ht.last (passes_once ht.passes) (taken_size hr ht hf) hv hm

/-- A text that is taken denotes an address where it is well formed, and only there. -/
theorem denotes_iff_formed (hr : Reads s r) (ht : Taken r) :
    (∃ addr, Denotes s addr) ↔ Formed r := by
  constructor
  · rintro ⟨addr, hd⟩
    exact (hd.formed hr).1
  · intro hf
    have hm : (List.replicate 16 (0 : UInt8)).length = 16 := rfl
    rcases hf.whole with hrest | ⟨os, hos, he⟩
    · exact ⟨_, taken_denotes hr ht hf (.inl ⟨hrest, rfl⟩) hm⟩
    · exact ⟨_, taken_denotes hr ht hf (.inr ⟨os, hos, he, rfl⟩) hm⟩

theorem taken_segs (ht : Taken r) : r.segs ≠ [] := by
  intro hnil
  have hu : Undoubled r.segs := by
    rw [hnil]
    exact nofun
  by_cases hdot : r.rest.head? = some 46
  · have := (ht.quad hdot).2.1 hu
    rw [hnil] at this
    cases this
  · have := ht.plain hdot hu
    rw [hnil] at this
    split_ifs at this <;> cases this

theorem length_segsText_pos (ht : Taken r) : 0 < (segsText r.segs).length := by
  obtain ⟨u, us, hs⟩ := List.exists_cons_of_ne_nil (taken_segs ht)
  rw [hs, segsText_cons, List.length_append, List.length_cons]
  omega

theorem quad_value {os : List Bytes} (hr : Reads s r) (hos : IsQuad os)
    (he : r.ending = quadText os)
    (h48 : r.last.head? = some 48)
    (hq : (∃ os n, QuadFront (r.ending.drop 1) os n) ∨ ∃ os, Overlong (r.ending.drop 1) os) :
    ∃ os', QuadFront (r.ending.drop 1) os' (r.ending.drop 1).length ∧
      os'.map octetOf = os.map octetOf := by
  obtain ⟨b, c, d, rfl, hrest⟩ := quad_ending hr hos he
  obtain ⟨ds, hlast⟩ := List.head?_eq_some_iff.mp h48
  rw [hlast] at hos he
  have hdrop : r.ending.drop 1 = quadText [ds, b, c, d] := by
    rw [he, (quadText_four _ b c d).1, (quadText_four ds b c d).1]
    rfl
  have hne : ds ≠ [] := by
    rintro rfl
    rw [hdrop, (quadText_four [] b c d).1, List.nil_append] at hq
    rcases hq with ⟨os, n, h⟩ | ⟨os, h⟩
    · exact front_not_dot h rfl
    · exact overlong_not_dot h rfl
  have hoctet := hos.2 (48 :: ds) (by simp)
  have hquad : IsQuad [ds, b, c, d] := by
    refine ⟨rfl, fun o ho => ?_⟩
    rcases List.mem_cons.mp ho with rfl | ho
    · exact octet_tail hoctet hne
    · exact hos.2 o (by simp [ho])
  rw [hdrop, hlast]
  refine ⟨[ds, b, c, d], quadFront_quadText hquad, ?_⟩
  exact congrArg (· :: [b, c, d].map octetOf) ((octetOf_tail hoctet hne).mpr rfl)

/-- What the decoder gives for a text of the right kind. -/
theorem formed_result (hr : Reads s r) (ht : Taken r) (hf : Formed r)
    (h48 : r.rest.head? = some 46 → r.last.head? = some 48) (hlen : s.length < 2^64) :
    ∃ v, EndValue r v ∧ ∀ m : Bytes, m.length = 16 → ip6StrDecode s m =
      (s.length, layout (gapAt r.segs 0) (segsBytes r.segs ++ v) m) := by
  have hs := congrArg List.length hr.text
  rw [List.length_append] at hs
  rcases hf.whole with hrest | ⟨os, hos, he⟩
  · refine ⟨_, .inl ⟨hrest, rfl⟩, fun m hm => ?_⟩
    rw [taken_plain hr ht (by rw [hrest]; simp) hm, hs, Reading.ending, hrest]
    simp
  · obtain ⟨b, c, d, -, hrest⟩ := quad_ending hr hos he
    have hdot : r.rest.head? = some 46 := by
      rw [hrest]
      rfl
    obtain ⟨os', hfront, hvalue⟩ := quad_value hr hos he (h48 hdot) (ht.quad hdot).2.2
    refine ⟨_, .inr ⟨os, hos, he, rfl⟩, fun m hm => ?_⟩
    have hpos : 0 < r.ending.length := by
      rw [Reading.ending, hrest, List.length_append, List.length_cons]
      omega
    rw [taken_quad hr ht hdot hfront hlen hm, hvalue, hs, List.length_drop]
    congr 1
    omega

theorem layout_same {g : Option ℕ} {w m m' : Bytes} (hw : g = none → w.length = 16)
    (hm : m.length = 16) (hm' : m'.length = 16) : layout g w m = layout g w m' := by
  cases g with
  | none => rw [layout_full (hw rfl) hm, layout_full (hw rfl) hm']
  | some i => rfl

theorem determines_of_formed (hr : Reads s r) (hlen : s.length < 2^64)
    (h : Taken r → Formed r ∧ (r.rest.head? = some 46 → r.last.head? = some 48)) :
    Determines s := by
  intro dst dst' hne
  by_cases ht : Taken r
  · obtain ⟨hf, h48⟩ := h ht
    obtain ⟨v, hv, hres⟩ := formed_result hr ht hf h48 hlen
    have hsize : gapAt r.segs 0 = none → (segsBytes r.segs ++ v).length = 16 := fun hgap => by
      rw [hv.length hr, taken_size hr ht hf (gapAt_eq_none.mp hgap)]
    rw [hres _ (by simp), hres _ (by simp)]
    refine ⟨layout_same hsize (by simp) (by simp), ?_⟩
    rw [List.take_length]
    exact taken_denotes hr ht hf hv (by simp)
  · exact absurd (not_taken hr ht hlen (by simp)) hne

/-- A text cut somewhere behind its last digits is read like the whole. -/
theorem reads_cut (hr : Reads s r) {k : ℕ} (hk : 0 < k) :
    Reads (segsText r.segs ++ (r.last ++ r.rest.take k)) ⟨r.segs, r.last, r.rest.take k⟩ where
  text := rfl
  segs := hr.segs
  last := hr.last
  spaced := by
    refine hr.spaced.congr ?_
    obtain ⟨j, rfl⟩ : ∃ j, k = j+1 := ⟨k-1, by omega⟩
    cases hl : r.last with
    | nil => cases hrest : r.rest <;> simp [Reading.ending, hl, hrest]
    | cons c t => simp [Reading.ending, hl]
  stop := by
    obtain ⟨j, rfl⟩ : ∃ j, k = j+1 := ⟨k-1, by omega⟩
    intro ch hch
    apply hr.stop ch
    cases hrest : r.rest with
    | nil => simp [hrest] at hch
    | cons c t => simpa [hrest] using hch

theorem take_ending (hr : Reads s r) {k : ℕ} :
    s.take ((segsText r.segs).length+k) = segsText r.segs ++ r.ending.take k := by
  rw [hr.text, List.take_length_add_append]

theorem formed_of_plain (hr : Reads s r) (hdot : r.rest.head? ≠ some 46) {addr : Bytes}
    (hd : Denotes (s.take ((segsText r.segs).length+r.last.length+(r.rest.take 1).length)) addr) :
    Formed r := by
  have htake : r.ending.take (r.last.length+(r.rest.take 1).length) = r.last ++ r.rest.take 1 := by
    rw [Reading.ending, List.take_length_add_append]
    congr 1
    cases r.rest <;> simp
  rw [Nat.add_assoc, take_ending hr, htake] at hd
  obtain ⟨hf, -⟩ := hd.formed (reads_cut hr (show 0 < 1 by omega))
  cases hrest : r.rest with
  | nil =>
    rw [hrest, List.take_nil, ← hrest] at hf
    exact hf
  | cons c t =>
    obtain ⟨hhex, -, hc⟩ := plain_stop hr hdot c (by rw [hrest]; rfl)
    rw [hrest] at hf
    rcases hf.whole with hnil | ⟨os, hos, he⟩
    · cases hnil
    · have hmem : c ∈ quadText os := by
        rw [← he]
        simp [Reading.ending]
      rcases mem_quadText hos hmem with hnum | hdot'
      · rw [numeral_hex hnum] at hhex
        cases hhex
      · exact absurd hdot' hc

/-- A quad whose characters are a quad with one more in front ends the text. -/
theorem front_whole {t : Bytes} {os os' : List Bytes} {c : UInt8} {k : ℕ} (h : QuadFront t os k)
    (hos : IsQuad os') (he : c :: t.take k = quadText os') : t.length = k := by
  obtain ⟨first, last, rest, -, -, -, rfl, rfl, hstop⟩ := h
  cases rest with
  | nil => simp
  | cons x rest =>
    obtain ⟨hnum, hdot⟩ := hstop x rfl
    have htake : (dotted first ++ last ++ x :: rest).take
        (dotted first ++ last ++ (x :: rest).take 1).length = dotted first ++ last ++ [x] := by
      rw [List.append_cons (dotted first ++ last)]
      exact List.take_left
    have hmem : x ∈ quadText os' := by
      rw [← he, htake]
      simp
    rcases mem_quadText hos hmem with h | h
    · rw [h] at hnum
      cases hnum
    · exact absurd h hdot

theorem layout_inj {g : Option ℕ} {w x y m : Bytes} (hg : ∀ i ∈ g, i ≤ w.length)
    (hx : x.length = y.length) (h : layout g (w ++ x) m = layout g (w ++ y) m) : x = y := by
  cases g with
  | none =>
    simp only [layout, Option.elim_none, patch, List.take_zero, List.nil_append, List.append_assoc]
      at h
    exact (List.append_inj (List.append_cancel_left h) hx).1
  | some i =>
    have hi := hg i rfl
    have hlen : (w ++ x).length = (w ++ y).length := by
      rw [List.length_append, List.length_append, hx]
    simp only [layout, Option.elim_some, spread, List.take_append_drop, hlen] at h
    rw [List.take_append_of_le_length hi, List.take_append_of_le_length hi,
      List.drop_append_of_le_length hi, List.drop_append_of_le_length hi] at h
    exact List.append_cancel_left (List.append_cancel_left h)

theorem front_long {t : Bytes} {os : List Bytes} {k : ℕ} (h : QuadFront t os k) : 4 ≤ k := by
  obtain ⟨first, last, rest, rfl, hl, ho, -, rfl, -⟩ := h
  match first, hl with
  | [a, b, c], _ =>
    have hpos := List.length_pos_iff.mpr (ho last (by simp)).1
    simp only [dotted_cons, List.length_append, List.length_cons]
    omega

/-- The first digit that is left out of a quad is of no value. -/
theorem quad_zero {os os' : List Bytes} {k : ℕ} (hr : Reads s r)
    (hq : QuadFront (r.ending.drop 1) os k) (hos : IsQuad os') (he : r.ending = quadText os')
    (hv : os.map octetOf = os'.map octetOf) : r.last.head? = some 48 := by
  obtain ⟨b, c, d, rfl, -⟩ := quad_ending hr hos he
  have hoctet := hos.2 r.last (by simp)
  obtain ⟨x, ds, hlast⟩ := List.exists_cons_of_ne_nil hoctet.1
  have hdrop : r.ending.drop 1 = quadText [ds, b, c, d] := by
    rw [he, hlast, (quadText_four _ b c d).1, (quadText_four ds b c d).1]
    rfl
  rw [hdrop] at hq
  have hne : ds ≠ [] := by
    rintro rfl
    rw [(quadText_four [] b c d).1] at hq
    exact front_not_dot hq rfl
  rw [hlast] at hoctet hv
  have hquad : IsQuad [ds, b, c, d] := by
    refine ⟨rfl, fun o ho => ?_⟩
    rcases List.mem_cons.mp ho with rfl | ho
    · exact octet_tail hoctet hne
    · exact hos.2 o (by simp [ho])
  have hsame : octetOf ds = octetOf (x :: ds) :=
    (List.cons.inj ((quadFront_octets (quadFront_quadText hquad) hq).trans hv)).1
  rw [hlast, (octetOf_tail hoctet hne).mp hsame]
  rfl

theorem formed_of_quad (hr : Reads s r) (hl : r.last.length ≤ 4) (hdot : r.rest.head? = some 46)
    {os : List Bytes} {k : ℕ} (hq : QuadFront (r.ending.drop 1) os k) {m : Bytes}
    (hm : m.length = 16) (hd : Denotes (s.take ((segsText r.segs).length+1+k))
      (layout (gapAt r.segs 0) (segsBytes r.segs ++ os.map octetOf) m)) :
    Formed r ∧ r.last.head? = some 48 := by
  have hlong := front_long hq
  obtain ⟨t, hrest⟩ := List.head?_eq_some_iff.mp hdot
  have hcut : r.ending.take (1+k) = r.last ++ r.rest.take (1+k-r.last.length) := by
    rw [Reading.ending, List.take_append, List.take_of_length_le (by omega)]
  have hwhole : s.take ((segsText r.segs).length+1+k) = s := by
    have hd' := hd
    rw [Nat.add_assoc, take_ending hr, hcut] at hd'
    obtain ⟨hf, -⟩ := hd'.formed (reads_cut hr (by omega))
    rcases hf.whole with hnil | ⟨os', hos', he⟩
    · rw [hrest, show 1+k-r.last.length = k-r.last.length+1 by omega, List.take_succ_cons] at hnil
      cases hnil
    · have hne : r.ending ≠ [] := by simp [Reading.ending, hrest]
      obtain ⟨c, x, hc⟩ := List.exists_cons_of_ne_nil hne
      rw [hc, List.drop_one, List.tail_cons] at hq
      have hx : c :: x.take k = quadText os' := by
        rw [← he, Reading.ending, ← hcut, hc, Nat.add_comm 1 k, List.take_succ_cons]
      have hlen := front_whole hq hos' hx
      rw [Nat.add_assoc, take_ending hr, hc, Nat.add_comm 1 k, List.take_succ_cons, ← hlen,
        List.take_length, ← hc]
      exact hr.text.symm
  rw [hwhole] at hd
  obtain ⟨hf, v, hv, heq⟩ := hd.formed hr
  refine ⟨hf, ?_⟩
  rcases hv with ⟨hnil, -⟩ | ⟨os', hos', he, rfl⟩
  · rw [hrest] at hnil
    cases hnil
  · have hlen : (os.map octetOf).length = (os'.map octetOf).length := by
      rw [List.length_map, List.length_map, (QuadFront.isQuad hq).1, hos'.1]
    exact quad_zero hr hq hos' he (layout_inj gap_within hlen (heq m hm))

theorem getLast?_layout {g : Option ℕ} {w x : Bytes} {c : UInt8} (hg : ∀ i ∈ g, i ≤ w.length)
    (hx : x.getLast? = some c) :
    (layout g (w ++ x) (List.replicate 16 c)).getLast? = some c := by
  cases g with
  | none =>
    have hpatch : layout none (w ++ x) (List.replicate 16 c) =
        w ++ x ++ List.replicate (16-(w ++ x).length) c := by
      rw [layout, Option.elim_none, patch, List.take_zero, List.nil_append, Nat.zero_add,
        List.drop_replicate]
    rw [hpatch, List.getLast?_append, List.getLast?_append, hx]
    cases hrep : (List.replicate (16-(w ++ x).length) c).getLast? with
    | none => rfl
    | some b =>
      have := List.eq_of_mem_replicate (List.mem_of_getLast? hrep)
      rw [this]
      rfl
  | some i =>
    have hi := hg i rfl
    rw [layout, Option.elim_some, spread, List.drop_append_of_le_length hi, List.getLast?_append,
      List.getLast?_append, hx]
    rfl

/-- An overlong quad leaves its last byte as it was. -/
theorem getLast?_staleQuad {w : Bytes} {os : List Bytes} (ho : os.length ≤ 3) (hw : w.length ≤ 12)
    (c : UInt8) : (staleQuad w (List.replicate 16 c) os).getLast? = some c := by
  simp only [staleQuad, List.drop_replicate, List.take_replicate, List.length_append,
    List.length_map, List.getLast?_append]
  obtain ⟨j, hj⟩ : ∃ j, min (4-os.length) (16-(w.length+os.length)) = j+1 :=
    ⟨min (4-os.length) (16-(w.length+os.length))-1, by omega⟩
  rw [hj, List.replicate_succ', List.getLast?_concat]
  rfl

theorem not_determines_stale (hr : Reads s r) (ht : Taken r) (hdot : r.rest.head? = some 46)
    {os : List Bytes} (hq : Overlong (r.ending.drop 1) os) (hlen : s.length < 2^64) :
    ¬Determines s := by
  intro h
  have hres : ∀ c, ip6StrDecode s (List.replicate 16 c) = _ := fun c =>
    taken_stale hr ht hdot hq hlen (by simp)
  have hroom := segs_room ht.passes
  have h6 := (ht.quad hdot).1
  obtain ⟨-, -, -, ho, -⟩ := hq
  have hlast : ∀ c, (layout (gapAt r.segs 0) (segsBytes r.segs ++
      staleQuad (segsBytes r.segs) (List.replicate 16 c) os) (List.replicate 16 c)).getLast? =
        some c := fun c =>
    getLast?_layout gap_within (getLast?_staleQuad ho (by omega) c)
  have hpos := length_segsText_pos ht
  have h01 := (h (Vector.replicate 16 0) (Vector.replicate 16 1) (by
    rw [Vector.toList_replicate, hres]
    simp only
    omega)).1
  rw [Vector.toList_replicate, Vector.toList_replicate, hres, hres] at h01
  have := (hlast 0).symm.trans ((congrArg List.getLast? h01).trans (hlast 1))
  cases this

theorem formed_of_determines (h : Determines s) (hr : Reads s r) (ht : Taken r)
    (hlen : s.length < 2^64) :
    Formed r ∧ (r.rest.head? = some 46 → r.last.head? = some 48) := by
  have hpos := length_segsText_pos ht
  have hd := fun (hne : (ip6StrDecode s (Vector.replicate 16 0 : Ip6Addr).toList).1 ≠ 0) =>
    (h (Vector.replicate 16 0) (Vector.replicate 16 0) hne).2
  by_cases hdot : r.rest.head? = some 46
  · rcases (ht.quad hdot).2.2 with ⟨os, k, hq⟩ | ⟨os, hq⟩
    · rw [taken_quad hr ht hdot hq hlen (by simp)] at hd
      obtain ⟨hf, h48⟩ := formed_of_quad hr ht.last hdot hq (by simp)
        (hd (by simp only; omega))
      exact ⟨hf, fun _ => h48⟩
    · exact absurd h (not_determines_stale hr ht hdot hq hlen)
  · rw [taken_plain hr ht hdot (by simp)] at hd
    exact ⟨formed_of_plain hr hdot (hd (by simp only; omega)), fun h => absurd h hdot⟩

end Whole

/-- An accepted text determines the address it denotes where it is no text of these kinds: one
with a colon alone at its beginning or end or three in a row, with a double colon for no group,
with characters behind the address, or with a quad behind a colon that does not begin with a
superfluous zero. -/
theorem determines_iff (s : Bytes) (hlen : s.length < 2^64) :
    Determines s ↔ ∀ r, Reads s r → Taken r →
      Formed r ∧ (r.rest.head? = some 46 → r.last.head? = some 48) := by
  constructor
  · exact fun h r hr ht => formed_of_determines h hr ht hlen
  · intro h
    obtain ⟨r, hr⟩ := reads_total s
    exact determines_of_formed hr hlen (h r hr)

theorem reads_loopback : Reads [58, 58, 49] ⟨[⟨[], true⟩], [49], []⟩ where
  text := rfl
  segs := by simp
  last := by simp [isHex, isNumeral]
  spaced := ⟨nofun, trivial⟩
  stop := nofun

theorem loopback_determined : Determines [58, 58, 49] := by
  refine (determines_iff [58, 58, 49] (by decide)).mpr fun r hr ht => ?_
  obtain rfl := reads_unique reads_loopback hr
  refine ⟨⟨?_, ?_, ?_, ?_, .inl rfl⟩, nofun⟩ <;> simp [Reading.ending, size]

/-- Behind a colon at the beginning seven groups are enough, and the last two bytes stay. -/
theorem leading_colon_not_determined :
    ¬Determines [58, 49, 58, 50, 58, 51, 58, 52, 58, 53, 58, 54, 58, 55] := by
  intro h
  have hsame := (h (Vector.replicate 16 0) (Vector.replicate 16 1) (by decide +kernel)).1
  revert hsame
  decide +kernel

end DnsPkt.AddressMeaning
