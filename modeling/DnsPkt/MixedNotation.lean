import DnsPkt.AddressRoundTrip

/-!
# Dotted quads in IPv6 texts

The texts that end in a dotted quad and what the decoder makes of them. It
reads the quad from the second character of its segment on, and for an address
that begins with twelve zero bytes the encoder has put the hexadecimal text of
the next group before the quad. The condition under which both cancel out is
exact.
-/

set_option autoImplicit false

namespace DnsPkt.MixedNotation
open DnsPkt.Octets DnsPkt.ReportText DnsPkt.StepMachine DnsPkt.AddressText DnsPkt.LongestRun
open DnsPkt.AddressNotation DnsPkt.AddressRoundTrip

def lastBytes (addr : Bytes) : Bytes := addr.drop 12

def RoundTrips (addr text dst : Bytes) : Prop := ip6StrDecode text dst = (text.length, addr)

/-- The octets `a` and `b` of a quad behind twelve zero bytes such that their
hexadecimal text without its first digit is a string of zeros, with at most four
digits before the first dot. -/
def Cancels (a b : ℕ) : Prop := (a = 0 ∧ (b < 16 ∨ b % 16 = 0)) ∨ (1 ≤ a ∧ a ≤ 9 ∧ b = 0)

/-- The mixed addresses whose text is read back; no IPv4-mapped address is one. -/
def Recovers (addr : Bytes) : Prop :=
  groupAt addr 10 = 0 ∧ Cancels (addr.getD 12 0).toNat (addr.getD 13 0).toNat

instance (addr : Bytes) : Decidable (Recovers addr) :=
  inferInstanceAs (Decidable (_ ∧ (_ ∨ _)))

theorem zeroRun_mixed {addr : Bytes} (h : isMixed addr = true) :
    (zeroRun addr = (0, 10) ∧ groupAt addr 10 = 0xffff ∨ zeroRun addr = (0, 12)) ∧
      ∃ l, Longest (IsZero addr) 8 0 l ∧ (zeroRun addr).2 = 2*l := by
  obtain ⟨i, l, hlo, hr⟩ := zeroRun_spec addr
  rw [isMixed, hr] at h
  simp only [Bool.and_eq_true, Bool.or_eq_true, decide_eq_true_eq] at h
  obtain ⟨h0, hl⟩ := h
  have h2 : ¬ l ≤ 1 := by
    intro hle
    rw [if_pos hle] at h0
    omega
  rw [if_neg h2] at h0
  have hi : i = 0 := by omega
  subst hi
  refine ⟨?_, l, hlo, by rw [hr]⟩
  rw [hr, if_neg h2]
  rcases hl with ⟨⟨h5, ha⟩, hb⟩ | h6
  · refine .inl ⟨by rw [h5]; rfl, ?_⟩
    rw [groupAt, ha, hb]
    rfl
  · exact .inr (by rw [h6]; rfl)

theorem quad_of_length {addr : Bytes} (h : addr.length = 16) :
    lastBytes addr = [addr.getD 12 0, addr.getD 13 0, addr.getD 14 0, addr.getD 15 0] := by
  apply List.ext_getElem
  · simp [lastBytes, h]
  · intro i h1 h2
    simp only [List.length_cons, List.length_nil] at h2
    rcases i with _ | _ | _ | _ | i <;> first | omega | simp [lastBytes, List.getD, h]

theorem groups_mapped (addr : Bytes) :
    groups addr 0 10 12 8 0 = [58, 58] ++ uint16Toax (groupAt addr 10) := by
  simp [groups]

theorem groups_compatible (addr : Bytes) :
    groups addr 0 12 12 8 0 = [58, 58] ++ uint16Toax (groupAt addr 12) := by
  simp [groups]

theorem ip6StrEncode_mapped {addr : Bytes} (h : isMixed addr = true) (hr : zeroRun addr = (0, 10))
    (len : ℕ) (hlen : ip6AddrStrlen ≤ len) : ip6StrEncode addr 0 len =
      [58, 58] ++ uint16Toax (groupAt addr 10) ++ [58] ++ ip4Str (lastBytes addr) := by
  have hx := length_uint16Toax_le (groupAt addr 10)
  have hroom : ¬ len-((uint16Toax (groupAt addr 10)).length+1+1+1) < 16 := by
    have : 46 ≤ len := hlen
    omega
  simp [ip6StrEncode, h, hr, hlen, groups_mapped, ip4StrEncode, lastBytes, hroom]

theorem ip6StrEncode_compatible {addr : Bytes} (h : isMixed addr = true)
    (hr : zeroRun addr = (0, 12)) (len : ℕ) (hlen : ip6AddrStrlen ≤ len) :
    ip6StrEncode addr 0 len =
      [58, 58] ++ uint16Toax (groupAt addr 12) ++ ip4Str (lastBytes addr) := by
  have hx := length_uint16Toax_le (groupAt addr 12)
  have hroom : ¬ len-((uint16Toax (groupAt addr 12)).length+1+1) < 16 := by
    have : 46 ≤ len := hlen
    omega
  simp [ip6StrEncode, h, hr, hlen, groups_compatible, ip4StrEncode, lastBytes, hroom]

section Refused

variable {str rest : Bytes} {o : ℕ × Bytes} {p q n a : ℕ} {m : Bytes}

/-- Digits that are no octet make the quad fail before its first dot. -/
theorem ip4_refused (ds : Bytes) (hs : str.drop p = ds ++ rest) (hx : ∀ ch ∈ ds, isHex ch = true)
    (hd : n+ds.length ≤ 3) (ha : a ≤ 255)
    (hbad : ¬ ((∀ ch ∈ ds, isNumeral ch = true) ∧ decimalOf a ds ≤ 255)) :
    ∃ m', Ends (ip4Step str) o (ds.length+2) ⟨p, str.length, m, q, n, 0, a⟩ (0, m') := by
  induction ds generalizing p n a with
  | nil => exact absurd ⟨by simp, ha⟩ hbad
  | cons ch ds ih =>
    obtain ⟨hp, hch, htl⟩ := drop_reads hs
    rw [List.length_cons] at hd
    by_cases hn : isNumeral ch = true
    · have hstep := ip4Step_numeral (m := m) (q := q) (k := 0) (a := a) hs hn (show n < 3 by omega)
      by_cases hv : 255 < a*10+(ch.toNat-48)
      · rw [if_pos hv] at hstep
        exact ⟨m, (ends_done hstep).more (by omega)⟩
      · rw [if_neg hv] at hstep
        obtain ⟨m', hm⟩ := ih (n := n+1) (a := a*10+(ch.toNat-48)) htl
          (fun c hc => hx c (by simp [hc])) (by omega) (by omega)
          (fun hg => hbad ⟨by simpa [hn] using hg.1, hg.2⟩)
        exact ⟨m', ((leads_next hstep).ends hm).more (by rw [List.length_cons])⟩
    · have hdot : ch ≠ 46 := by
        rintro rfl
        exact absurd (hx 46 (by simp)) (by decide)
      have hstep : ip4Step str ⟨p, str.length, m, q, n, 0, a⟩ = .next ⟨p+1, 0, m, q, n, 0, a⟩ := by
        simp only [ip4Step]
        rw [if_pos hp, hch, if_neg hn, if_neg hdot]
      have hstop : ip4Step str ⟨p+1, 0, m, q, n, 0, a⟩ = .done (0, m) := by
        rw [ip4Step, if_neg (by simp), Ip4Scan.finish, if_pos (by simp)]
      exact ⟨m, ((leads_next hstep).ends (ends_done hstop)).more (by simp)⟩

end Refused

/-- The digits before the first dot that the decoder of quads takes for an octet. -/
def OctetText (ds : Bytes) : Prop :=
  ds ≠ [] ∧ (∀ ch ∈ ds, isNumeral ch = true) ∧ decimalOf 0 ds ≤ 255

theorem ip4StrDecode_refused {ds : Bytes} (b c d : UInt8) (m : Bytes)
    (hx : ∀ ch ∈ ds, isHex ch = true) (hd : ds.length ≤ 3) (hbad : ¬ OctetText ds) :
    (ip4StrDecode (ds ++ quadTail b c d) m).1 = 0 := by
  set str := ds ++ quadTail b c d with hstr
  have hs : str.drop 0 = ds ++ quadTail b c d := rfl
  by_cases h0 : ds = []
  · subst h0
    have hstep := ip4Step_dot (m := m) (q := 0) (n := 0) (k := 0) (a := 0)
      (show str.drop 0 = 46 :: _ from hs)
    rw [if_pos (.inl rfl)] at hstep
    have hends : Ends (ip4Step str) (0, m) 1 _ _ := ends_done hstep
    rw [ip4StrDecode, hends (str.length+1) (by omega)]
  · obtain ⟨m', hm⟩ := ip4_refused (o := (0, m)) (m := m) (q := 0) ds hs hx (n := 0) (a := 0)
      (by omega) (by omega) (fun hg => hbad ⟨h0, hg⟩)
    have := hm (str.length+1) (by simp [hstr, quadTail])
    rw [ip4StrDecode, this]

section Segment

variable {str : Bytes} {o : ℕ × Bytes} {p n : ℕ} {m w : Bytes}

/-- The dot of a quad in a segment of which the first character is skipped. -/
theorem ip6_dot {ds : Bytes} (b c d : UInt8) (hs : str.drop p = ds ++ quadTail b c d)
    (hx : ∀ ch ∈ ds, isHex ch = true) (h0 : ds ≠ []) (hd : ds.length ≤ 4) :
    ∃ t, ip6Step str t = Ip6Scan.dot str ⟨p+ds.length+1, str.length, p+1, patch m 0 w, w.length,
        some 0, ds.length, n, hexOf 0 ds⟩ ∧
      Leads (ip6Step str) o ds.length (segment str m w (some 0) n (p+1) p) t ∧
      slice str (p+1) (str.length-(p+1)) = ds.tail ++ quadTail b c d := by
  obtain ⟨ch, ds, rfl⟩ := List.exists_cons_of_ne_nil h0
  have hl := ip6_digits (o := o) (e := p+1) (m := patch m 0 w) (q := w.length) (z := some 0)
    (n := 0)
    (k := n) (a := 0) (ch :: ds) hs hx (by omega)
  rw [Nat.zero_add] at hl
  refine ⟨_, ?_, hl, ?_⟩
  · obtain ⟨hp, hc, -⟩ := drop_reads (drop_skips hs)
    simp only [ip6Step]
    rw [if_pos hp, hc, if_neg (by decide), if_neg (by decide), if_pos rfl]
  · obtain ⟨-, -, ht⟩ := drop_reads hs
    rw [slice, ht, List.take_of_length_le]
    · rfl
    · rw [← ht, List.length_drop]

theorem ip6_too_long {ds rest : Bytes} (hs : str.drop p = ds ++ rest)
    (hx : ∀ ch ∈ ds, isHex ch = true) (hd : 4 < ds.length) {e : ℕ} {z : Option ℕ} :
    Ends (ip6Step str) o 5 (segment str m w z n e p) (0, patch m 0 w) := by
  have hsplit : ds.take 4 ++ (ds.drop 4 ++ rest) = ds ++ rest := by
    rw [← List.append_assoc, List.take_append_drop]
  have h4 : (ds.take 4).length = 4 := by rw [List.length_take]; omega
  have hl := ip6_digits (o := o) (e := e) (m := patch m 0 w) (q := w.length) (z := z) (n := 0)
    (k := n) (a := 0) (ds.take 4) (by rw [hs, hsplit]) (fun c hc => hx c (List.mem_of_mem_take hc))
    (by omega)
  have hne : ds.drop 4 ≠ [] := by
    rw [Ne, List.drop_eq_nil_iff]
    omega
  obtain ⟨ch, tl, hcons⟩ := List.exists_cons_of_ne_nil hne
  have hch : isHex ch = true := hx ch (List.mem_of_mem_drop (by rw [hcons]; simp))
  have hs' := drop_skips (x := ds.take 4) (by rw [hs, ← hsplit])
  rw [hcons, List.cons_append] at hs'
  obtain ⟨hp, hc, -⟩ := drop_reads hs'
  rw [h4] at hl hp hc
  refine (hl.ends (ends_done ?_)).more (by omega)
  simp only [ip6Step]
  rw [if_pos hp, hc, if_pos hch, if_pos (by omega)]

theorem ip6_quad_refused {ds : Bytes} (b c d : UInt8) (hs : str.drop p = ds ++ quadTail b c d)
    (hx : ∀ ch ∈ ds, isHex ch = true) (h0 : ds ≠ []) (hlen : str.length < 2^64)
    (hbad : ¬ (ds.length ≤ 4 ∧ OctetText ds.tail)) (hn : n ≤ 6) :
    ∃ m', Ends (ip6Step str) o (1+ds.length) (segment str m w (some 0) n (p+1) p) (0, m') := by
  by_cases hd : ds.length ≤ 4
  · obtain ⟨t, ht, hl, hslice⟩ := ip6_dot (o := o) (m := m) (w := w) (n := n) b c d hs hx h0 hd
    have hzero := ip4StrDecode_refused b c d ((patch m 0 w).drop w.length)
      (fun ch hc => hx ch (List.mem_of_mem_tail hc)) (by rw [List.length_tail]; omega)
      (fun hok => hbad ⟨hd, hok⟩)
    have hp := (drop_reads (drop_skips hs)).1
    have hmod : (p+1) % 2^64 = p+1 := Nat.mod_eq_of_lt (by omega)
    have hdot : ∃ m', Ip6Scan.dot str ⟨p+ds.length+1, str.length, p+1, patch m 0 w, w.length,
        some 0, ds.length, n, hexOf 0 ds⟩ = .done (0, m') := by
      rw [Ip6Scan.dot, if_neg (by simp only []; omega)]
      simp only [hslice, hzero, Nat.add_zero, hmod, if_true]
      exact ⟨_, rfl⟩
    obtain ⟨m', hm⟩ := hdot
    exact ⟨m', hl.ends (ends_done (ht.trans hm))⟩
  · exact ⟨_, (ip6_too_long hs hx (by omega)).more (by omega)⟩

theorem ip6_quad {ds : Bytes} (b c d : UInt8) (hs : str.drop p = ds ++ quadTail b c d)
    (hx : ∀ ch ∈ ds, isHex ch = true) (hlen : str.length < 2^64) (hd : ds.length ≤ 4)
    (hok : OctetText ds.tail) (hn : n ≤ 6) (hm : w.length+4 ≤ m.length) :
    Ends (ip6Step str) o (2+ds.length) (segment str m w (some 0) n (p+1) p)
      (str.length, zeroFill (patch m 0 (w ++ [UInt8.ofNat (decimalOf 0 ds.tail), b, c, d])) 0
        (w.length+4)) := by
  have h0 : ds ≠ [] := fun h => hok.1 (by rw [h]; rfl)
  obtain ⟨t, ht, hl, hslice⟩ := ip6_dot (o := o) (m := m) (w := w) (n := n) b c d hs hx h0 hd
  have htake : (patch m 0 w).take w.length = w := by
    rw [patch, List.take_zero, List.nil_append, List.take_left]
  have hdrop : (patch m 0 w).drop w.length = m.drop w.length := by
    rw [patch, List.take_zero, List.nil_append, List.drop_left, Nat.zero_add]
  have hquad := ip4StrDecode_quad ds.tail b c d (m.drop w.length) hok.1 hok.2.1
    (by rw [List.length_tail]; omega) hok.2.2 (by rw [List.length_drop]; omega)
  set q := [UInt8.ofNat (decimalOf 0 ds.tail), b, c, d]
  have hpatch : w ++ patch (m.drop w.length) 0 q = patch m 0 (w ++ q) := by
    simp only [patch, List.take_zero, List.nil_append, List.drop_drop, List.length_append,
      Nat.zero_add, List.append_assoc]
  have htotal : p+1+(ds.tail ++ quadTail b c d).length = str.length := by
    have hpos := List.length_pos_iff.mpr h0
    have := length_of_drop hs (by simp [h0])
    rw [this, List.length_append, List.length_append, List.length_tail]
    omega
  have hmod : (p+1+(ds.tail ++ quadTail b c d).length) % 2^64 = str.length := by
    rw [htotal, Nat.mod_eq_of_lt hlen]
  have hpos : 0 < (ds.tail ++ quadTail b c d).length := by simp [quadTail]
  have hdot : Ip6Scan.dot str ⟨p+ds.length+1, str.length, p+1, patch m 0 w, w.length, some 0,
      ds.length, n, hexOf 0 ds⟩ = .next ⟨str.length, 0, p+1, patch m 0 (w ++ q), w.length+4,
        some 0, 0, n+2, hexOf 0 ds⟩ := by
    rw [Ip6Scan.dot, if_neg (by simp only []; omega)]
    simp only [hslice, hdrop, hquad, hmod, htake, hpatch]
    rw [if_neg (by omega)]
  have hstop : ip6Step str ⟨str.length, 0, p+1, patch m 0 (w ++ q), w.length+4, some 0, 0, n+2,
      hexOf 0 ds⟩ = .done (str.length, zeroFill (patch m 0 (w ++ q)) 0 (w.length+4)) := by
    rw [ip6Step, if_neg (by simp)]
    rfl
  exact hl.ends ((leads_next (ht.trans hdot)).ends (ends_done hstop))

end Segment

/-- The quad of a mixed text gives the address back exactly when the digits
before its first dot, without the first of them, spell the first octet. -/
theorem segment_recovers {str m w ds : Bytes} {p n j : ℕ} {a b c d : UInt8}
    (hl : Leads (ip6Step str) (0, m) j (segment str m [] none 0 0 0)
      (segment str m w (some 0) n (p+1) p))
    (hj : 2+ds.length+j ≤ str.length+1) (hs : str.drop p = ds ++ quadTail b c d)
    (hx : ∀ ch ∈ ds, isHex ch = true) (h0 : ds ≠ []) (hlen : str.length < 2^64) (hn : n ≤ 6)
    (hm : m.length = 16) (hw : w.length ≤ 12) :
    ip6StrDecode str m = (str.length, List.replicate (12-w.length) 0 ++ (w ++ [a, b, c, d])) ↔
      ds.length ≤ 4 ∧ OctetText ds.tail ∧ decimalOf 0 ds.tail = a.toNat := by
  by_cases hok : ds.length ≤ 4 ∧ OctetText ds.tail
  · have hend := ip6_quad (o := (0, m)) (m := m) (w := w) b c d hs hx hlen hok.1 hok.2 hn (by omega)
    have hv := hok.2.2.2
    have hfill := zeroFill_gap [] (w ++ [UInt8.ofNat (decimalOf 0 ds.tail), b, c, d]) m hm
      (by simp; omega)
    simp only [List.nil_append, List.length_nil, List.length_append, List.length_cons] at hfill
    rw [show 16-(w.length+(0+1+1+1+1)) = 12-w.length by omega] at hfill
    rw [ip6StrDecode_ends (hl.ends hend) hj, hfill]
    constructor
    · intro he
      have h1 := List.append_cancel_left (Prod.ext_iff.mp he).2
      have h2 := List.append_cancel_left h1
      have h3 := congrArg UInt8.toNat (List.cons.inj h2).1
      rw [UInt8.toNat_ofNat_of_lt' (show _ < 256 by omega)] at h3
      exact ⟨hok.1, hok.2, h3⟩
    · rintro ⟨-, -, hv'⟩
      rw [hv', UInt8.ofNat_toNat]
  · obtain ⟨m', hend⟩ := ip6_quad_refused (o := (0, m)) (m := m) (w := w) b c d hs hx h0 hlen hok hn
    rw [ip6StrDecode_ends (hl.ends hend) (by omega)]
    constructor
    · intro he
      have hz := (Prod.ext_iff.mp he).1
      have hne := length_of_drop hs (by simp [h0])
      rw [List.length_append] at hne
      have hpos := List.length_pos_iff.mpr h0
      simp only at hz
      omega
    · rintro ⟨h1, h2, -⟩
      exact absurd ⟨h1, h2⟩ hok

theorem isHex_of_isNumeral {ch : UInt8} (h : isNumeral ch = true) : isHex ch = true := by
  rw [isHex, h]
  rfl

/-- The tail of an octet is never the octet. -/
theorem octet_tail : ∀ v : ℕ, v < 256 →
    ¬ ((uint8Toa (UInt8.ofNat v)).tail ≠ [] ∧ decimalOf 0 (uint8Toa (UInt8.ofNat v)).tail = v) := by
  decide +kernel

theorem length_uint8Toa : ∀ v : ℕ, v < 256 → ((uint8Toa (UInt8.ofNat v)).length = 1 ↔ v < 10) := by
  decide +kernel

theorem address_split {addr : Bytes} (h : addr.length = 16) {l : ℕ} (hl : l ≤ 6)
    (hlo : Longest (IsZero addr) 8 0 l) :
    addr = List.replicate (2*l) 0 ++ (groupBytes (((addressGroups addr).drop l).take (6-l)) ++
      lastBytes addr) := by
  have haround := address_around h hlo.run
  rw [Nat.zero_add, List.take_zero, show groupBytes [] = [] from rfl, List.nil_append] at haround
  have happ : groupBytes ((addressGroups addr).drop l) =
      groupBytes (((addressGroups addr).drop l).take (6-l)) ++
        groupBytes ((addressGroups addr).drop 6) := by
    conv_lhs => rw [← List.take_append_drop (6-l) ((addressGroups addr).drop l)]
    rw [List.drop_drop, show l+(6-l) = 6 by omega]
    simp [groupBytes]
  rw [happ, ← List.append_assoc] at haround
  have hlast : lastBytes addr = groupBytes ((addressGroups addr).drop 6) := by
    have hlen : (List.replicate (2*l) (0 : UInt8) ++
        groupBytes (((addressGroups addr).drop l).take (6-l))).length = 12 := by
      rw [List.length_append, List.length_replicate, length_groupBytes, List.length_take,
        List.length_drop, length_addressGroups]
      omega
    rw [lastBytes]
    conv_lhs => rw [← haround, ← hlen, List.drop_left]
  rw [hlast, ← List.append_assoc]
  exact haround.symm

theorem length_quadTail (b c d : UInt8) :
    3 ≤ (quadTail b c d).length ∧ (quadTail b c d).length ≤ 12 := by
  have hb := uint8Toa_length_le b
  have hc := uint8Toa_length_le c
  have hd := uint8Toa_length_le d
  simp only [quadTail, List.length_cons, List.length_append]
  omega

/-- The text of a mixed address up to its quad. -/
theorem mixed_lead {str m tl : Bytes} (hs : str.drop 0 = 58 :: 58 :: tl) (o : ℕ × Bytes) :
    Leads (ip6Step str) o 1 (segment str m [] none 0 0 0) (segment str m [] (some 0) 1 3 2) ∧
      str.drop 2 = tl :=
  ⟨ip6_double hs, (drop_reads (drop_reads hs).2.2).2.2⟩

theorem mapped_lost {addr dst : Bytes} (ha : addr.length = 16) (hd : dst.length = 16)
    (h : isMixed addr = true) (hr : zeroRun addr = (0, 10)) (hg : groupAt addr 10 = 0xffff)
    (hlo : Longest (IsZero addr) 8 0 5) (len : ℕ) (hlen : ip6AddrStrlen ≤ len) :
    ¬ RoundTrips addr (ip6StrEncode addr 0 len) dst := by
  have hsplit := address_split ha (by omega) hlo
  have hquad := quad_of_length ha
  rw [drop_addressGroups addr (by omega), hg] at hsplit
  have hone : (0xffff :: (addressGroups addr).drop (5+1)).take (6-5) = [0xffff] := rfl
  rw [hone, hquad] at hsplit
  rw [ip6StrEncode_mapped h hr len hlen, hg, hquad, ip4Str_eq_quad]
  set a := addr.getD 12 0
  set b := addr.getD 13 0
  set c := addr.getD 14 0
  set d := addr.getD 15 0
  set str := [58, 58] ++ uint16Toax 0xffff ++ [58] ++ (uint8Toa a ++ quadTail b c d) with hstr
  have hx : (uint16Toax 0xffff).length = 4 := by decide
  obtain ⟨ch, tl, hch⟩ := List.exists_cons_of_ne_nil (uint8Toa_ne_nil a)
  have hne : ch ≠ 58 := by
    rintro rfl
    exact absurd (uint8Toa_numeral a (show 58 ∈ uint8Toa a by rw [hch]; simp)) (by decide)
  obtain ⟨h1, hs2⟩ := mixed_lead (m := dst) (show str.drop 0 = 58 :: 58 :: _ from rfl) (0, dst)
  have hs2' : str.drop 2 = uint16Toax 0xffff ++ 58 :: (uint8Toa a ++ quadTail b c d) := hs2
  have hs3 := drop_after hs2'
  rw [hch, List.cons_append] at hs2'
  have h2 := ip6_colon (o := (0, dst)) (m := dst) (w := []) (z := some 0) (n := 1) (e := 3) 0xffff
    (by omega) hs2' hne (by omega) (by rw [hd, List.length_nil]; omega)
  have hu := uint8Toa_length_le a
  have hlen' : str.length = 7+((uint8Toa a).length+(quadTail b c d).length) := by
    simp only [hstr, List.length_append, hx, List.length_cons, List.length_nil]
  have hql := length_quadTail b c d
  rw [hx] at h2 hs3
  intro hrt
  rw [RoundTrips, hsplit] at hrt
  obtain ⟨-, hoct, hv⟩ := (segment_recovers (h1.trans h2) (by omega) hs3
    (fun c hc => isHex_of_isNumeral (uint8Toa_numeral a hc)) (uint8Toa_ne_nil a) (by omega)
    (by omega) hd (by rw [List.nil_append, length_groupBytes, List.length_singleton]; omega)).mp hrt
  have := octet_tail a.toNat a.toNat_lt
  rw [UInt8.ofNat_toNat] at this
  exact this ⟨hoct.1, hv⟩

theorem decimalOf_append (acc : ℕ) (x y : Bytes) :
    decimalOf acc (x ++ y) = decimalOf acc x*10^y.length+decimalOf 0 y := by
  induction y using List.reverseRecOn with
  | nil => simp [decimalOf]
  | append_singleton y ch ih =>
    rw [decimalOf] at ih ⊢
    rw [← List.append_assoc, List.foldl_append, ih]
    simp only [decimalOf, List.foldl_append, List.foldl_cons, List.foldl_nil, List.length_append,
      List.length_singleton, pow_succ]
    ring

/-- Numerals of no value are zeros. -/
theorem decimalOf_eq_zero_iff (ds : Bytes) :
    ((∀ ch ∈ ds, isNumeral ch = true) ∧ decimalOf 0 ds = 0) ↔ ∀ ch ∈ ds, ch = 48 := by
  induction ds with
  | nil => simp [decimalOf]
  | cons ch ds ih =>
    have hcons : decimalOf 0 (ch :: ds) = (ch.toNat-48)*10^ds.length+decimalOf 0 ds := by
      have := decimalOf_append 0 [ch] ds
      simpa [decimalOf] using this
    have hten : 0 < 10^ds.length := Nat.pow_pos (by omega)
    rw [hcons, List.forall_mem_cons, List.forall_mem_cons, ← ih]
    constructor
    · rintro ⟨⟨hn, hns⟩, hz⟩
      have h0 : decimalOf 0 ds = 0 := by omega
      have h1 : ch.toNat-48 = 0 := by
        rcases Nat.eq_zero_or_pos (ch.toNat-48) with h | h
        · exact h
        · have := Nat.mul_pos h hten
          omega
      refine ⟨?_, hns, h0⟩
      have h48 : (48 : UInt8) ≤ ch := by
        rw [isNumeral, Bool.and_eq_true] at hn
        simpa using hn.1
      have := UInt8.le_iff_toNat_le.mp h48
      apply UInt8.toNat_inj.mp
      have h48' : (48 : UInt8).toNat = 48 := rfl
      omega
    · rintro ⟨rfl, hns, h0⟩
      exact ⟨⟨rfl, hns⟩, by simp [h0]⟩

theorem hexDigit_eq_zero : ∀ d, d < 16 → (hexDigit d = 48 ↔ d = 0) := by decide

/-- When the group in front of a quad cancels out. -/
theorem digits_cancel {a b : ℕ} (ha : a < 256) (hb : b < 256) :
    ((uint16Toax (a*256+b)).length+(uint8Toa (UInt8.ofNat a)).length ≤ 4 ∧
      ∀ ch ∈ (uint16Toax (a*256+b)).tail, ch = 48) ↔ Cancels a b := by
  have hpos := List.length_pos_iff.mpr (uint8Toa_ne_nil (UInt8.ofNat a))
  have hle := uint8Toa_length_le (UInt8.ofNat a)
  have hone := length_uint8Toa a ha
  have hm : ∀ n, n % 16 < 16 := fun n => Nat.mod_lt _ (by omega)
  set v := a*256+b with hv
  set u := (uint8Toa (UInt8.ofNat a)).length
  rw [Cancels]
  by_cases h1 : v < 16
  · rw [uint16Toax_digit h1]
    simp only [List.length_singleton, List.tail_cons, List.not_mem_nil, false_implies,
      implies_true, and_true]
    omega
  by_cases h2 : v < 256
  · rw [uint16Toax_push (by omega) (by omega), uint16Toax_digit (v := v / 16) (by omega)]
    simp only [List.length_cons, List.length_nil, List.cons_append, List.nil_append,
      List.tail_cons, List.mem_singleton, forall_eq, hexDigit_eq_zero _ (hm v)]
    omega
  by_cases h3 : v < 4096
  · rw [uint16Toax_push (by omega) (by omega), uint16Toax_push (v := v / 16) (by omega) (by omega),
      uint16Toax_digit (v := v / 16 / 16) (by omega)]
    simp only [List.length_cons, List.length_nil, List.cons_append, List.nil_append,
      List.tail_cons, List.mem_cons, List.not_mem_nil, or_false, forall_eq_or_imp, forall_eq,
      hexDigit_eq_zero _ (hm v), hexDigit_eq_zero _ (hm (v / 16))]
    omega
  · rw [uint16Toax_push (by omega) (by omega), uint16Toax_push (v := v / 16) (by omega) (by omega),
      uint16Toax_push (v := v / 16 / 16) (by omega) (by omega),
      uint16Toax_digit (v := v / 16 / 16 / 16) (by omega)]
    simp only [List.length_append, List.length_singleton]
    omega

theorem compatible_recovers {addr dst : Bytes} (ha : addr.length = 16) (hd : dst.length = 16)
    (h : isMixed addr = true) (hr : zeroRun addr = (0, 12)) (hlo : Longest (IsZero addr) 8 0 6)
    (len : ℕ) (hlen : ip6AddrStrlen ≤ len) :
    RoundTrips addr (ip6StrEncode addr 0 len) dst ↔
      Cancels (addr.getD 12 0).toNat (addr.getD 13 0).toNat := by
  have hsplit := address_split ha le_rfl hlo
  have hquad := quad_of_length ha
  have hg := groupAt_lt addr 12
  rw [show 6-6 = 0 from rfl, List.take_zero, hquad] at hsplit
  rw [ip6StrEncode_compatible h hr len hlen, hquad, ip4Str_eq_quad]
  have hval : groupAt addr 12 = (addr.getD 12 0).toNat*256+(addr.getD 13 0).toNat := rfl
  set a := addr.getD 12 0
  set b := addr.getD 13 0
  set c := addr.getD 14 0
  set d := addr.getD 15 0
  set g := groupAt addr 12
  set str := [58, 58] ++ uint16Toax g ++ (uint8Toa a ++ quadTail b c d) with hstr
  obtain ⟨h1, hs2⟩ := mixed_lead (m := dst) (show str.drop 0 = 58 :: 58 :: _ from rfl) (0, dst)
  have hs3 : str.drop 2 = uint16Toax g ++ uint8Toa a ++ quadTail b c d := by
    rw [hs2, List.append_assoc]
    rfl
  obtain ⟨hhex, -⟩ := uint16Toax_read g hg
  have hgpos := List.length_pos_iff.mpr (uint16Toax_ne_nil g)
  have hx := length_uint16Toax_le g
  have hu := uint8Toa_length_le a
  have hql := length_quadTail b c d
  have hlen' : str.length =
      2+((uint16Toax g).length+((uint8Toa a).length+(quadTail b c d).length)) := by
    simp only [hstr, List.length_append, List.length_cons, List.length_nil]
    omega
  have hrec := segment_recovers (a := a) h1
    (by rw [hlen', List.length_append]; omega) hs3
    (fun ch hc => (List.mem_append.mp hc).elim (hhex ch)
      (fun hc => isHex_of_isNumeral (uint8Toa_numeral a hc)))
    (by simp [uint16Toax_ne_nil]) (by omega) (by omega) hd (by simp)
  have htail : (uint16Toax g ++ uint8Toa a).tail = (uint16Toax g).tail ++ uint8Toa a :=
    List.tail_append_of_ne_nil (uint16Toax_ne_nil g)
  have hcancel := digits_cancel a.toNat_lt b.toNat_lt
  rw [UInt8.ofNat_toNat, ← hval] at hcancel
  have haddr : addr = List.replicate (12-([] : Bytes).length) 0 ++ ([] ++ [a, b, c, d]) := hsplit
  rw [RoundTrips, haddr, hrec, ← hcancel, htail, List.length_append]
  have hten : 0 < 10^(uint8Toa a).length := Nat.pow_pos (by omega)
  have hdec := decimalOf_append 0 (uint16Toax g).tail (uint8Toa a)
  rw [decimalOf_uint8Toa] at hdec
  rw [← decimalOf_eq_zero_iff, OctetText, hdec]
  have hlt := a.toNat_lt
  constructor
  · rintro ⟨h4, ⟨-, hn, -⟩, hv⟩
    refine ⟨h4, fun ch hc => hn ch (List.mem_append_left _ hc), ?_⟩
    rcases Nat.eq_zero_or_pos (decimalOf 0 (uint16Toax g).tail) with hz | hz
    · exact hz
    · have := Nat.mul_pos hz hten
      omega
  · rintro ⟨h4, hn, hz⟩
    refine ⟨h4, ⟨by simp [uint8Toa_ne_nil], fun ch hc => ?_, by rw [hz]; omega⟩, by rw [hz]; omega⟩
    exact (List.mem_append.mp hc).elim (hn ch) (uint8Toa_numeral a)

/-- A text with a dotted quad is read back as its address exactly when the skipped
digit and the doubled group cancel out; that of an IPv4-mapped address never is. -/
theorem mixed_round_trip_iff (addr dst : Ip6Addr) (len : ℕ) (hlen : ip6AddrStrlen ≤ len)
    (h : isMixed addr.toList = true) :
    RoundTrips addr.toList (ip6StrEncode addr.toList 0 len) dst.toList ↔
      Recovers addr.toList := by
  have ha : addr.toList.length = 16 := by simp
  have hd : dst.toList.length = 16 := by simp
  obtain ⟨hcase, l, hlo, hl⟩ := zeroRun_mixed h
  rcases hcase with ⟨hr, hg⟩ | hr
  · rw [hr] at hl
    have h5 : l = 5 := by simp only at hl; omega
    subst h5
    refine iff_of_false (mapped_lost ha hd h hr hg hlo len hlen) (fun hrec => ?_)
    have := hrec.1
    omega
  · rw [hr] at hl
    have h6 : l = 6 := by simp only at hl; omega
    subst h6
    rw [compatible_recovers ha hd h hr hlo len hlen, Recovers]
    have h10 : groupAt addr.toList 10 = 0 := hlo.run.2 5 (by omega)
    exact ⟨fun hc => ⟨h10, hc⟩, fun hc => hc.2⟩

theorem compatible_address_round_trip :
    RoundTrips [0, 0, 0, 0, 0, 0, 0, 0, 0, 0, 0, 0, 9, 0, 3, 4]
        (ip6StrEncode [0, 0, 0, 0, 0, 0, 0, 0, 0, 0, 0, 0, 9, 0, 3, 4] 0 46)
        (List.replicate 16 0) ↔
      Recovers [0, 0, 0, 0, 0, 0, 0, 0, 0, 0, 0, 0, 9, 0, 3, 4] :=
  mixed_round_trip_iff #v[0, 0, 0, 0, 0, 0, 0, 0, 0, 0, 0, 0, 9, 0, 3, 4] (Vector.replicate 16 0)
    46 le_rfl (by decide)

/-- The text of `::ffff:17.2.3.4` is read as `::ffff:7.2.3.4`. -/
theorem mapped_address_loses_digit :
    let addr : Bytes := [0, 0, 0, 0, 0, 0, 0, 0, 0, 0, 255, 255, 17, 2, 3, 4]
    let dst : Bytes := List.replicate 16 0
    isMixed addr = true ∧ ¬ RoundTrips addr (ip6StrEncode addr 0 46) dst ∧
      ip6StrDecode (ip6StrEncode addr 0 46) dst =
        (15, [0, 0, 0, 0, 0, 0, 0, 0, 0, 0, 255, 255, 7, 2, 3, 4]) := by
  unfold RoundTrips
  decide +kernel

end DnsPkt.MixedNotation
