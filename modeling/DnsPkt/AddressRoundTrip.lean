import DnsPkt.AddressNotation

/-!
# Address texts read back

What the decoders make of decimal octets, dotted quads, hexadecimal groups and
the gap of a double colon, and the round trip of the plain notations. The
destination is kept as the bytes written so far over its old contents.
-/

set_option autoImplicit false

namespace DnsPkt.AddressRoundTrip
open DnsPkt.Octets DnsPkt.ReportText DnsPkt.StepMachine DnsPkt.AddressText DnsPkt.LongestRun
open DnsPkt.AddressNotation

theorem drop_reads {str rest : Bytes} {p : ℕ} {ch : UInt8} (h : str.drop p = ch :: rest) :
    p < str.length ∧ str.getD p 0 = ch ∧ str.drop (p+1) = rest := by
  have hp : p < str.length := by
    by_contra hge
    rw [List.drop_eq_nil_of_le (by omega)] at h
    simp at h
  rw [List.drop_eq_getElem_cons hp] at h
  obtain ⟨h1, h2⟩ := List.cons.inj h
  exact ⟨hp, by simpa [List.getD, hp] using h1, h2⟩

theorem drop_skips {str x rest : Bytes} {p : ℕ} (h : str.drop p = x ++ rest) :
    str.drop (p+x.length) = rest := by
  rw [← List.drop_drop, h, List.drop_left]

theorem drop_after {str x rest : Bytes} {p : ℕ} {ch : UInt8} (h : str.drop p = x ++ ch :: rest) :
    str.drop (p+x.length+1) = rest :=
  (drop_reads (drop_skips h)).2.2

theorem length_of_drop {str x : Bytes} {p : ℕ} (h : str.drop p = x) (hx : x ≠ []) :
    str.length = p+x.length := by
  have := congrArg List.length h
  have hx' := List.length_pos_iff.mpr hx
  rw [List.length_drop] at this
  omega

def decimalOf (acc : ℕ) (ds : Bytes) : ℕ := ds.foldl (fun a ch => a*10+(ch.toNat-48)) acc

theorem le_decimalOf (ds : Bytes) (acc : ℕ) : acc ≤ decimalOf acc ds := by
  induction ds generalizing acc with
  | nil => exact le_rfl
  | cons ch ds ih =>
    have := ih (acc*10+(ch.toNat-48))
    simp only [decimalOf, List.foldl_cons] at this ⊢
    omega

theorem uint8Toa_decimal : ∀ v : ℕ, v < 256 →
    (uint8Toa (UInt8.ofNat v)).all isNumeral = true ∧
      decimalOf 0 (uint8Toa (UInt8.ofNat v)) = v := by
  decide +kernel

theorem uint8Toa_numeral (v : UInt8) {ch : UInt8} (h : ch ∈ uint8Toa v) : isNumeral ch = true := by
  have := (uint8Toa_decimal v.toNat v.toNat_lt).1
  rw [UInt8.ofNat_toNat] at this
  exact List.all_eq_true.mp this ch h

theorem decimalOf_uint8Toa (v : UInt8) : decimalOf 0 (uint8Toa v) = v.toNat := by
  have := (uint8Toa_decimal v.toNat v.toNat_lt).2
  rwa [UInt8.ofNat_toNat] at this

theorem uint8Toa_ne_nil (v : UInt8) : uint8Toa v ≠ [] := by
  simp only [uint8Toa]
  split_ifs <;> simp

section Quad

variable {str rest : Bytes} {o : ℕ × Bytes} {p q n k a : ℕ} {m : Bytes}

theorem ip4Step_numeral {ch : UInt8} (hs : str.drop p = ch :: rest) (hn : isNumeral ch = true)
    (hd : n < 3) : ip4Step str ⟨p, str.length, m, q, n, k, a⟩ =
      if 255 < a*10+(ch.toNat-48) then .done (0, m) else
      .next ⟨p+1, str.length, m, q, n+1, k, a*10+(ch.toNat-48)⟩ := by
  obtain ⟨hp, hch, -⟩ := drop_reads hs
  simp only [ip4Step]
  rw [if_pos hp, hch, if_pos hn, if_neg (by omega)]

theorem ip4Step_dot (hs : str.drop p = 46 :: rest) :
    ip4Step str ⟨p, str.length, m, q, n, k, a⟩ =
      if n = 0 ∨ 3 ≤ k then .done (0, m) else
      .next ⟨p+1, str.length, patch m q [UInt8.ofNat a], q+1, 0, k+1, 0⟩ := by
  obtain ⟨hp, hch, -⟩ := drop_reads hs
  simp only [ip4Step]
  rw [if_pos hp, hch, if_neg (by decide), if_pos rfl]

theorem ip4_digits (ds : Bytes) (hs : str.drop p = ds ++ rest)
    (hn : ∀ ch ∈ ds, isNumeral ch = true) (hd : n+ds.length ≤ 3) (hv : decimalOf a ds ≤ 255) :
    Leads (ip4Step str) o ds.length ⟨p, str.length, m, q, n, k, a⟩
      ⟨p+ds.length, str.length, m, q, n+ds.length, k, decimalOf a ds⟩ := by
  induction ds generalizing p n a with
  | nil => exact fun k => rfl
  | cons ch ds ih =>
    have hle := le_decimalOf ds (a*10+(ch.toNat-48))
    have hv' : decimalOf (a*10+(ch.toNat-48)) ds ≤ 255 := hv
    rw [List.length_cons] at hd
    have hstep := ip4Step_numeral (m := m) (q := q) (k := k) (a := a) hs
      (hn ch (by simp)) (show n < 3 by omega)
    rw [if_neg (by omega)] at hstep
    have htail := ih (drop_reads hs).2.2 (fun c hc => hn c (by simp [hc]))
      (show n+1+ds.length ≤ 3 by omega) hv'
    rw [show p+1+ds.length = p+(ch :: ds).length by rw [List.length_cons]; omega,
      show n+1+ds.length = n+(ch :: ds).length by rw [List.length_cons]; omega] at htail
    exact (leads_next hstep).trans htail

/-- The state with `w` stored, before the next octet. -/
def between (str m w : Bytes) (p : ℕ) : Ip4Scan :=
  ⟨p, str.length, patch m 0 w, w.length, 0, w.length, 0⟩

/-- An octet with its dot is stored behind the octets before it. -/
theorem ip4_octet (ds w : Bytes) (hs : str.drop p = ds ++ 46 :: rest) (h0 : ds ≠ [])
    (hn : ∀ ch ∈ ds, isNumeral ch = true) (hd : ds.length ≤ 3) (hv : decimalOf 0 ds ≤ 255)
    (hw : w.length < 3) (hm : 4 ≤ m.length) :
    Leads (ip4Step str) o (1+ds.length) (between str m w p)
      (between str m (w ++ [UInt8.ofNat (decimalOf 0 ds)]) (p+ds.length+1)) := by
  have h1 := ip4_digits (o := o) (m := patch m 0 w) (q := w.length) (k := w.length)
    (n := 0) (a := 0) ds hs hn (by omega) hv
  have hpos := List.length_pos_iff.mpr h0
  have hstep := ip4Step_dot (m := patch m 0 w) (q := w.length) (n := 0+ds.length)
    (k := w.length) (a := decimalOf 0 ds) (drop_skips hs)
  have hpatch := patch_patch m 0 w [UInt8.ofNat (decimalOf 0 ds)] (by omega)
  rw [Nat.zero_add] at hpatch
  rw [if_neg (by omega), hpatch] at hstep
  rw [between, between, List.length_append, List.length_singleton]
  exact h1.trans (leads_next hstep)

theorem ip4_end (ds w : Bytes) (hs : str.drop p = ds) (h0 : ds ≠ [])
    (hn : ∀ ch ∈ ds, isNumeral ch = true) (hd : ds.length ≤ 3) (hv : decimalOf 0 ds ≤ 255)
    (hw : w.length = 3) (hm : 4 ≤ m.length) :
    Ends (ip4Step str) o (1+ds.length) (between str m w p)
      (str.length, patch m 0 (w ++ [UInt8.ofNat (decimalOf 0 ds)])) := by
  have hlen := length_of_drop hs h0
  have hpos := List.length_pos_iff.mpr h0
  have h1 := ip4_digits (o := o) (m := patch m 0 w) (q := w.length) (k := w.length) (n := 0)
    (a := 0) ds (show str.drop p = ds ++ [] by rw [hs, List.append_nil]) hn (by omega) hv
  have hpatch := patch_patch m 0 w [UInt8.ofNat (decimalOf 0 ds)] (by omega)
  rw [Nat.zero_add] at hpatch
  refine h1.ends (ends_done ?_)
  rw [ip4Step, if_neg (by simp only []; omega), Ip4Scan.finish, if_neg (by simp only []; omega)]
  simp only [hpatch, ← hlen]

theorem decimalOf_uint8Toa_le (v : UInt8) : decimalOf 0 (uint8Toa v) ≤ 255 := by
  have := v.toNat_lt
  rw [decimalOf_uint8Toa]
  omega

theorem ip4_byte (v : UInt8) (w : Bytes) (hs : str.drop p = uint8Toa v ++ 46 :: rest)
    (hw : w.length < 3) (hm : 4 ≤ m.length) :
    Leads (ip4Step str) o (1+(uint8Toa v).length) (between str m w p)
      (between str m (w ++ [v]) (p+(uint8Toa v).length+1)) := by
  have := ip4_octet (o := o) (uint8Toa v) w hs (uint8Toa_ne_nil v) (fun _ => uint8Toa_numeral v)
    (uint8Toa_length_le v) (decimalOf_uint8Toa_le v) hw hm
  rwa [decimalOf_uint8Toa, UInt8.ofNat_toNat] at this

theorem ip4_last (v : UInt8) (w : Bytes) (hs : str.drop p = uint8Toa v) (hw : w.length = 3)
    (hm : 4 ≤ m.length) : Ends (ip4Step str) o (1+(uint8Toa v).length) (between str m w p)
      (str.length, patch m 0 (w ++ [v])) := by
  have := ip4_end (o := o) (uint8Toa v) w hs (uint8Toa_ne_nil v) (fun _ => uint8Toa_numeral v)
    (uint8Toa_length_le v) (decimalOf_uint8Toa_le v) hw hm
  rwa [decimalOf_uint8Toa, UInt8.ofNat_toNat] at this

end Quad

def quadTail (b c d : UInt8) : Bytes :=
  46 :: (uint8Toa b ++ 46 :: (uint8Toa c ++ 46 :: uint8Toa d))

/-- A quad is read as it was written, with any digits as its first octet. -/
theorem ip4StrDecode_quad (ds : Bytes) (b c d : UInt8) (m : Bytes) (h0 : ds ≠ [])
    (hn : ∀ ch ∈ ds, isNumeral ch = true) (hd : ds.length ≤ 3) (hv : decimalOf 0 ds ≤ 255)
    (hm : 4 ≤ m.length) :
    ip4StrDecode (ds ++ quadTail b c d) m = ((ds ++ quadTail b c d).length,
      patch m 0 [UInt8.ofNat (decimalOf 0 ds), b, c, d]) := by
  set str := ds ++ quadTail b c d with hstr
  have e1 : str.drop 0 = ds ++ 46 :: _ := rfl
  have h1 := ip4_octet (o := (0, m)) ds [] e1 h0 hn hd hv (by simp) hm
  have e2 := drop_after e1
  have h2 := ip4_byte (o := (0, m)) b [UInt8.ofNat (decimalOf 0 ds)] e2 (by simp) hm
  have e3 := drop_after e2
  have h3 := ip4_byte (o := (0, m)) c [UInt8.ofNat (decimalOf 0 ds), b] e3 (by simp) hm
  have h4 := ip4_last (o := (0, m)) d [UInt8.ofNat (decimalOf 0 ds), b, c] (drop_after e3)
    (by simp) hm
  have hend := h1.ends (h2.ends (h3.ends h4))
  exact hend (str.length+1) (by simp [hstr, quadTail]; omega)

theorem ip4Str_eq_quad (a b c d : UInt8) : ip4Str [a, b, c, d] = uint8Toa a ++ quadTail b c d := by
  simp [ip4Str, quadTail]

/-- The text of an IPv4 address is read back. -/
theorem ip4StrDecode_ip4StrEncode (a b c d : UInt8) (len : ℕ) (hlen : ip4AddrStrlen ≤ len)
    (m : Bytes) (hm : 4 ≤ m.length) :
    ip4StrDecode (ip4StrEncode [a, b, c, d] len) m =
      ((ip4StrEncode [a, b, c, d] len).length, patch m 0 [a, b, c, d]) := by
  have := ip4StrDecode_quad (uint8Toa a) b c d m (uint8Toa_ne_nil a) (fun _ => uint8Toa_numeral a)
    (uint8Toa_length_le a) (decimalOf_uint8Toa_le a) hm
  rw [ip4StrEncode, if_neg (by omega), ip4Str_eq_quad, this, decimalOf_uint8Toa, UInt8.ofNat_toNat]

def hexOf (acc : ℕ) (ds : Bytes) : ℕ := ds.foldl (fun a ch => a*16 ||| hexToNibble ch) acc

def groupBytes (gs : List ℕ) : Bytes := gs.flatMap fun g => encU16 (UInt16.ofNat g)

theorem hexDigit_read : ∀ d, d < 16 → isHex (hexDigit d) = true ∧ hexToNibble (hexDigit d) = d := by
  decide

theorem uint16Toax_read (v : ℕ) (hv : v < 2^16) :
    (∀ ch ∈ uint16Toax v, isHex ch = true) ∧ hexOf 0 (uint16Toax v) = v := by
  induction v using Nat.strong_induction_on with
  | _ v ih =>
    by_cases h : v < 16
    · obtain ⟨h1, h2⟩ := hexDigit_read v h
      rw [uint16Toax_digit h]
      exact ⟨by simpa using h1, by simpa [hexOf] using h2⟩
    · obtain ⟨ih1, ih2⟩ := ih (v / 16) (by omega) (by omega)
      have hlt := Nat.mod_lt v (show 0 < 16 by omega)
      obtain ⟨h1, h2⟩ := hexDigit_read (v % 16) hlt
      rw [uint16Toax_push (by omega) hv]
      refine ⟨fun ch hc => ?_, ?_⟩
      · rcases List.mem_append.mp hc with hm | hm
        · exact ih1 ch hm
        · rw [List.mem_singleton.mp hm]
          exact h1
      · have hor := Nat.two_pow_add_eq_or_of_lt (i := 4) hlt (v / 16)
        rw [hexOf] at ih2 ⊢
        rw [List.foldl_append, ih2, List.foldl_cons, List.foldl_nil, h2, Nat.mul_comm]
        rw [← hor]
        exact Nat.div_add_mod v 16

theorem uint16Toax_ne_nil (v : ℕ) : uint16Toax v ≠ [] := by simp [uint16Toax]

section Groups

variable {str rest : Bytes} {o : ℕ × Bytes} {p q e n k a : ℕ} {z : Option ℕ} {m w : Bytes}

theorem ip6_digits (ds : Bytes) (hs : str.drop p = ds ++ rest) (hn : ∀ ch ∈ ds, isHex ch = true)
    (hd : n+ds.length ≤ 4) :
    Leads (ip6Step str) o ds.length ⟨p, str.length, e, m, q, z, n, k, a⟩
      ⟨p+ds.length, str.length, e, m, q, z, n+ds.length, k, hexOf a ds⟩ := by
  induction ds generalizing p n a with
  | nil => exact fun k => rfl
  | cons ch ds ih =>
    rw [List.length_cons] at hd
    obtain ⟨hp, hch, htl⟩ := drop_reads hs
    have hstep : ip6Step str ⟨p, str.length, e, m, q, z, n, k, a⟩ =
        .next ⟨p+1, str.length, e, m, q, z, n+1, k, a*16 ||| hexToNibble ch⟩ := by
      simp only [ip6Step]
      rw [if_pos hp, hch, if_pos (hn ch (by simp)), if_neg (by omega)]
    have htail := ih htl (fun c hc => hn c (by simp [hc])) (show n+1+ds.length ≤ 4 by omega)
      (a := a*16 ||| hexToNibble ch)
    rw [show p+1+ds.length = p+(ch :: ds).length by rw [List.length_cons]; omega,
      show n+1+ds.length = n+(ch :: ds).length by rw [List.length_cons]; omega] at htail
    exact (leads_next hstep).trans htail

/-- The state at the start of a segment, with `w` stored. -/
def segment (str m w : Bytes) (z : Option ℕ) (n e p : ℕ) : Ip6Scan :=
  ⟨p, str.length, e, patch m 0 w, w.length, z, 0, n, 0⟩

theorem ip6_group (g : ℕ) (hg : g < 2^16) (hs : str.drop p = uint16Toax g ++ rest) :
    Leads (ip6Step str) o (uint16Toax g).length (segment str m w z n e p)
      ⟨p+(uint16Toax g).length, str.length, e, patch m 0 w, w.length, z, (uint16Toax g).length,
        n, g⟩ := by
  obtain ⟨h1, h2⟩ := uint16Toax_read g hg
  have h := ip6_digits (o := o) (e := e) (m := patch m 0 w) (q := w.length) (z := z) (n := 0)
    (k := n) (a := 0) (uint16Toax g) hs h1 (by have := length_uint16Toax_le g; omega)
  rwa [h2, Nat.zero_add] at h

/-- The stored digits of a group. -/
theorem patch_group (g : ℕ) (hw : w.length+2 ≤ m.length) :
    patch (patch m 0 w) w.length (encU16 (UInt16.ofNat g)) = patch m 0 (w ++ groupBytes [g]) := by
  have := patch_patch m 0 w (encU16 (UInt16.ofNat g)) (by omega)
  rw [Nat.zero_add] at this
  rw [this]
  simp [groupBytes]

theorem length_groupBytes (gs : List ℕ) : (groupBytes gs).length = 2*gs.length := by
  induction gs with
  | nil => rfl
  | cons g gs ih =>
    simp only [groupBytes, List.flatMap_cons, List.length_append, length_encU16,
      List.length_cons] at ih ⊢
    omega

theorem ip6Step_colon (hs : str.drop p = 58 :: rest) :
    ip6Step str ⟨p, str.length, e, m, q, z, n, k, a⟩ =
      Ip6Scan.colon str ⟨p+1, str.length, e, m, q, z, n, k, a⟩ := by
  obtain ⟨hp, hc, -⟩ := drop_reads hs
  simp only [ip6Step]
  rw [if_pos hp, hc, if_neg (by decide), if_pos rfl]

/-- A colon behind a group stores the group. -/
theorem ip6_store (g : ℕ) (hg : g < 2^16) (hs : str.drop p = uint16Toax g ++ 58 :: rest)
    (hn : n < 7) (hw : w.length+2 ≤ m.length) :
    ∃ t, ip6Step str t = Ip6Scan.gap str ⟨p+(uint16Toax g).length+1, str.length, e,
        patch m 0 (w ++ groupBytes [g]), w.length+2, z, (uint16Toax g).length, n, g⟩ ∧
      Leads (ip6Step str) o (uint16Toax g).length (segment str m w z n e p) t := by
  have hpos := List.length_pos_iff.mpr (uint16Toax_ne_nil g)
  refine ⟨_, ?_, ip6_group g hg hs⟩
  rw [ip6Step_colon (drop_skips hs), Ip6Scan.colon, if_pos (by simp only []; omega),
    if_neg (by simp only []; omega), Ip6Scan.store]
  simp only [patch_group g hw]

theorem ip6_colon (g : ℕ) {ch : UInt8} (hg : g < 2^16)
    (hs : str.drop p = uint16Toax g ++ 58 :: ch :: rest) (hch : ch ≠ 58) (hn : n < 7)
    (hw : w.length+2 ≤ m.length) :
    Leads (ip6Step str) o (1+(uint16Toax g).length) (segment str m w z n e p)
      (segment str m (w ++ groupBytes [g]) z (n+1) (p+(uint16Toax g).length+2)
        (p+(uint16Toax g).length+1)) := by
  obtain ⟨t, ht, hl⟩ := ip6_store (o := o) (z := z) (e := e) g hg hs hn hw
  obtain ⟨-, hc, -⟩ := drop_reads (drop_after hs)
  refine hl.trans (leads_next ?_)
  rw [ht, Ip6Scan.gap, if_neg (by simp only []; rw [hc]; simp [hch])]
  simp only [Ip6Scan.nextSegment, segment, List.length_append, length_groupBytes,
    List.length_singleton]

theorem ip6_double (hs : str.drop p = 58 :: 58 :: rest) :
    Leads (ip6Step str) o 1 (segment str m w none n e p)
      (segment str m w (some w.length) (n+1) (p+3) (p+2)) := by
  obtain ⟨hp, hc, -⟩ := drop_reads (drop_reads hs).2.2
  refine leads_next ?_
  rw [segment, ip6Step_colon hs, Ip6Scan.colon, if_neg (by simp), Ip6Scan.gap,
    if_pos ⟨hp, hc⟩, if_neg (by simp)]
  rfl

theorem ip6_group_double (g : ℕ) (hg : g < 2^16)
    (hs : str.drop p = uint16Toax g ++ 58 :: 58 :: rest) (hn : n < 7)
    (hw : w.length+2 ≤ m.length) :
    Leads (ip6Step str) o (1+(uint16Toax g).length) (segment str m w none n e p)
      (segment str m (w ++ groupBytes [g]) (some (w ++ groupBytes [g]).length) (n+1)
        (p+(uint16Toax g).length+3) (p+(uint16Toax g).length+2)) := by
  obtain ⟨t, ht, hl⟩ := ip6_store (o := o) (z := none) (e := e) g hg hs hn hw
  obtain ⟨hp, hc, -⟩ := drop_reads (drop_after hs)
  refine hl.trans (leads_next ?_)
  rw [ht, Ip6Scan.gap, if_pos ⟨hp, hc⟩, if_neg (by simp)]
  simp only [Ip6Scan.nextSegment, segment, List.length_append, length_groupBytes,
    List.length_singleton]

/-- What the decoder gives with `w` stored and `n` segments counted. -/
def closed (str m w : Bytes) (z : Option ℕ) (n : ℕ) : ℕ × Bytes :=
  match z with
  | some i => (str.length, zeroFill (patch m 0 w) i w.length)
  | none => if n ≠ 8 then (0, patch m 0 w) else (str.length, patch m 0 w)

theorem ip6_end (hp : p = str.length) :
    Ends (ip6Step str) o 1 (segment str m w z n e p) (closed str m w z n) := by
  subst hp
  refine ends_done ?_
  rw [ip6Step, if_neg (by simp [segment])]
  rfl

theorem ip6_last (g : ℕ) (hg : g < 2^16) (hs : str.drop p = uint16Toax g)
    (hw : w.length+2 ≤ m.length) :
    Ends (ip6Step str) o (1+(uint16Toax g).length) (segment str m w z n e p)
      (closed str m (w ++ groupBytes [g]) z (n+1)) := by
  have h1 := ip6_group (o := o) (m := m) (w := w) (z := z) (n := n) (e := e) g hg
    (show str.drop p = uint16Toax g ++ [] by rw [hs, List.append_nil])
  have hlen := length_of_drop hs (uint16Toax_ne_nil g)
  have hpos := List.length_pos_iff.mpr (uint16Toax_ne_nil g)
  refine h1.ends (ends_done ?_)
  rw [ip6Step, if_neg (by simp only []; omega), Ip6Scan.finish]
  cases z with
  | none =>
    simp only [if_pos (show (uint16Toax g).length ≠ 0 by omega), Ip6Scan.store, patch_group g hw,
      ← hlen, closed]
  | some i =>
    simp only [if_pos (show (uint16Toax g).length ≠ 0 by omega), Ip6Scan.store, patch_group g hw,
      ← hlen, closed, List.length_append, length_groupBytes, List.length_singleton, Nat.mul_one]

/-- The first of several groups is read up to the next. -/
theorem ip6_next (g g' : ℕ) (gs : List ℕ) (hg : ∀ x ∈ g :: g' :: gs, x < 2^16)
    (hs : str.drop p = joined (g :: g' :: gs) ++ rest) (hn : n < 7)
    (hw : w.length+2 ≤ m.length) :
    Leads (ip6Step str) o (1+(uint16Toax g).length) (segment str m w z n e p)
        (segment str m (w ++ groupBytes [g]) z (n+1) (p+(uint16Toax g).length+2)
          (p+(uint16Toax g).length+1)) ∧
      str.drop (p+(uint16Toax g).length+1) = joined (g' :: gs) ++ rest := by
  rw [joined_cons_cons, List.append_assoc, List.cons_append] at hs
  have hne : joined (g' :: gs) ≠ [] := by
    rw [joined_cons]
    simp [uint16Toax_ne_nil]
  obtain ⟨ch, tl, hj⟩ := List.exists_cons_of_ne_nil hne
  have hch : ch ≠ 58 := by
    have := (joined_single (g' :: gs) fun x hx => hg x (by simp [hx])).2
    rw [hj] at this
    simpa using this
  have hs' := hs
  rw [hj, List.cons_append] at hs'
  exact ⟨ip6_colon g (hg g (by simp)) hs' hch hn hw, drop_after hs⟩

theorem groupBytes_append (w : Bytes) (g : ℕ) (gs : List ℕ) :
    w ++ groupBytes [g] ++ groupBytes gs = w ++ groupBytes (g :: gs) := by
  simp [groupBytes]

/-- Groups joined by colons are read to the end of the text. -/
theorem ip6_tail (g : ℕ) (gs : List ℕ) (hg : ∀ x ∈ g :: gs, x < 2^16)
    (hs : str.drop p = joined (g :: gs)) (hn : n+gs.length ≤ 7)
    (hw : w.length+2*(gs.length+1) ≤ m.length) :
    Ends (ip6Step str) o (1+(joined (g :: gs)).length) (segment str m w z n e p)
      (closed str m (w ++ groupBytes (g :: gs)) z (n+(gs.length+1))) := by
  induction gs generalizing g n e p w with
  | nil =>
    have hj : joined [g] = uint16Toax g := by simp [joined, List.intercalate]
    rw [hj] at hs ⊢
    exact ip6_last g (hg g (by simp)) hs (by simpa using hw)
  | cons g' gs ih =>
    rw [List.length_cons] at hn hw
    obtain ⟨h1, hs'⟩ := ip6_next (o := o) (z := z) (e := e) g g' gs hg
      (by rw [hs, List.append_nil]) (show n < 7 by omega) (show w.length+2 ≤ m.length by omega)
    rw [List.append_nil] at hs'
    have h2 := ih (n := n+1) (w := w ++ groupBytes [g]) (e := p+(uint16Toax g).length+2) g'
      (fun x hx => hg x (by simp [hx])) hs' (by omega)
      (by rw [List.length_append, length_groupBytes, List.length_singleton]; omega)
    rw [groupBytes_append, show n+1+(gs.length+1) = n+((g' :: gs).length+1) by
      rw [List.length_cons]; omega] at h2
    refine (h1.ends h2).more ?_
    simp only [joined_cons_cons, List.length_append, List.length_cons]
    omega

/-- Groups before a double colon are read up to behind it. -/
theorem ip6_front (gs : List ℕ) (hg : ∀ x ∈ gs, x < 2^16)
    (hs : str.drop p = joined gs ++ 58 :: 58 :: rest) (hn : n+gs.length ≤ 7)
    (hw : w.length+2*gs.length ≤ m.length) :
    ∃ e', Leads (ip6Step str) o (1+(joined gs).length) (segment str m w none n e p)
      (segment str m (w ++ groupBytes gs) (some (w ++ groupBytes gs).length)
        (n+max 1 gs.length) e' (p+(joined gs).length+2)) := by
  induction gs generalizing n e p w with
  | nil =>
    refine ⟨p+3, ?_⟩
    have := ip6_double (o := o) (m := m) (w := w) (n := n) (e := e) hs
    simpa [joined, List.intercalate, groupBytes] using this
  | cons g gs ih =>
    rw [List.length_cons] at hn hw
    cases gs with
    | nil =>
      have hj : joined [g] = uint16Toax g := by simp [joined, List.intercalate]
      rw [hj] at hs ⊢
      rw [List.length_nil] at hn
      exact ⟨_, ip6_group_double g (hg g (by simp)) hs (by omega) (by simpa using hw)⟩
    | cons g' gs =>
      rw [List.length_cons] at hn hw
      obtain ⟨h1, hs'⟩ := ip6_next (o := o) (z := none) (e := e) g g' gs hg hs
        (show n < 7 by omega) (show w.length+2 ≤ m.length by omega)
      obtain ⟨e', h2⟩ := ih (n := n+1) (w := w ++ groupBytes [g]) (e := p+(uint16Toax g).length+2)
        (fun x hx => hg x (by simp [hx])) hs' (by rw [List.length_cons]; omega)
        (by rw [List.length_append, length_groupBytes, List.length_singleton, List.length_cons]
            omega)
      have hlen : (joined (g :: g' :: gs)).length =
          (uint16Toax g).length+1+(joined (g' :: gs)).length := by
        simp only [joined_cons_cons, List.length_append, List.length_cons]
        omega
      rw [groupBytes_append, show n+1+max 1 (g' :: gs).length = n+max 1 (g :: g' :: gs).length by
        simp only [List.length_cons]; omega, show p+(uint16Toax g).length+1+
        (joined (g' :: gs)).length+2 = p+(joined (g :: g' :: gs)).length+2 by omega] at h2
      refine ⟨e', ?_⟩
      have h3 := h1.trans h2
      rwa [show 1+(joined (g' :: gs)).length+(1+(uint16Toax g).length) =
        1+(joined (g :: g' :: gs)).length by omega] at h3

end Groups

theorem zeroFill_gap (a b m : Bytes) (hm : m.length = 16) (hab : a.length+b.length ≤ 16) :
    zeroFill (patch m 0 (a ++ b)) a.length (a ++ b).length =
      a ++ List.replicate (16-(a ++ b).length) 0 ++ b := by
  have hl : (a ++ b).length = a.length+b.length := List.length_append
  have hp : patch m 0 (a ++ b) = a ++ (b ++ m.drop (a ++ b).length) := by
    rw [patch, List.take_zero, List.nil_append, List.append_assoc, Nat.zero_add]
  have hb : slice (patch m 0 (a ++ b)) a.length b.length = b := by
    rw [hp]
    exact slice_at_end a b _
  have ht : (patch m 0 (a ++ b)).take a.length = a := by
    rw [hp, List.take_left]
  have hlen : (patch m 0 (a ++ b)).length = 16 := by
    rw [length_patch _ _ _ (by omega), hm]
  set d := patch m 0 (a ++ b)
  have hmoved : patch d (16-b.length) b = d.take (16-b.length) ++ b := by
    rw [patch, List.drop_eq_nil_of_le (by omega), List.append_nil]
  simp only [zeroFill, show (a ++ b).length-a.length = b.length by omega, hb, hmoved]
  have hhead : (d.take (16-b.length) ++ b).take a.length = a := by
    rw [List.take_append_of_le_length (by rw [List.length_take]; omega), List.take_take,
      Nat.min_eq_left (by omega), ht]
  have htail : (d.take (16-b.length) ++ b).drop (16-b.length) = b := by
    rw [List.drop_append_of_le_length (by rw [List.length_take]; omega),
      List.drop_eq_nil_of_le (by rw [List.length_take]; omega), List.nil_append]
  rw [patch, hhead, List.length_replicate, show a.length+(16-(a ++ b).length) =
    16-b.length by omega,
    htail]

theorem ip6StrDecode_ends {str m : Bytes} {r : ℕ × Bytes} {j : ℕ}
    (h : Ends (ip6Step str) (0, m) j (segment str m [] none 0 0 0) r) (hj : j ≤ str.length+1) :
    ip6StrDecode str m = r := by
  have := h (str.length+1) hj
  rwa [segment, patch_nil] at this

/-- A text with a double colon is read as its groups around a gap of zeros. -/
theorem ip6_gap (a b : List ℕ) (ha : ∀ x ∈ a, x < 2^16) (hb : ∀ x ∈ b, x < 2^16)
    (hab : max 1 a.length+b.length ≤ 8) (ha7 : a.length ≤ 7) (m : Bytes) (hm : m.length = 16) :
    ip6StrDecode (joined a ++ [58, 58] ++ joined b) m =
      ((joined a ++ [58, 58] ++ joined b).length,
        groupBytes a ++ List.replicate (16-(groupBytes a ++ groupBytes b).length) 0 ++
          groupBytes b) := by
  set str := joined a ++ [58, 58] ++ joined b with hstr
  have hs : str.drop 0 = joined a ++ 58 :: 58 :: joined b := by simp [hstr]
  have hlen : str.length = (joined a).length+2+(joined b).length := by
    simp [hstr]
    omega
  obtain ⟨e, h1⟩ := ip6_front (o := (0, m)) (m := m) (w := []) (n := 0) (e := 0) a ha hs (by omega)
    (by simp; omega)
  rw [List.nil_append, Nat.zero_add, Nat.zero_add] at h1
  have hs' : str.drop ((joined a).length+2) = joined b := by
    have h58 := drop_after hs
    have := (drop_reads h58).2.2
    rwa [Nat.zero_add] at this
  have hfill := zeroFill_gap (groupBytes a) (groupBytes b) m hm
    (by rw [length_groupBytes, length_groupBytes]; omega)
  rw [← hfill]
  cases b with
  | nil =>
    have h2 := ip6_end (o := (0, m)) (m := m) (w := groupBytes a) (e := e)
      (n := max 1 a.length) (z := some (groupBytes a).length) (p := (joined a).length+2)
      (by rw [hlen]; simp [joined, List.intercalate])
    have h3 := ip6StrDecode_ends (h1.ends h2) (by omega)
    rw [h3, closed, show groupBytes [] = [] from rfl, List.append_nil]
  | cons g gs =>
    rw [List.length_cons] at hab
    have h2 := ip6_tail (o := (0, m)) (m := m) (w := groupBytes a) (e := e)
      (n := max 1 a.length) (z := some (groupBytes a).length) g gs hb hs' (by omega)
      (by rw [length_groupBytes]; omega)
    exact ip6StrDecode_ends (h1.ends h2) (by omega)

theorem ip6_plain (gs : List ℕ) (hg : ∀ x ∈ gs, x < 2^16) (hl : gs.length = 8)
    (m : Bytes) (hm : m.length = 16) :
    ip6StrDecode (joined gs) m = ((joined gs).length, groupBytes gs) := by
  cases gs with
  | nil => simp at hl
  | cons g gs =>
    rw [List.length_cons] at hl
    have h := ip6_tail (o := (0, m)) (m := m) (w := []) (e := 0) (n := 0) (z := none) g gs hg
      (show (joined (g :: gs)).drop 0 = joined (g :: gs) from rfl) (by omega) (by simp; omega)
    rw [ip6StrDecode_ends h (by omega), closed, if_neg (by omega), patch, List.take_zero,
      List.drop_eq_nil_of_le (by rw [List.nil_append, length_groupBytes, List.length_cons]; omega),
      List.append_nil]
    rfl

theorem encU16_groupAt (addr : Bytes) (i : ℕ) :
    encU16 (UInt16.ofNat (groupAt addr i)) = [addr.getD i 0, addr.getD (i+1) 0] := by
  have h0 := (addr.getD i 0).toNat_lt
  have h1 := (addr.getD (i+1) 0).toNat_lt
  have hn : (UInt16.ofNat (groupAt addr i)).toNat = groupAt addr i :=
    UInt16.toNat_ofNat_of_lt' (groupAt_lt addr i)
  rw [encU16, hn, groupAt]
  congr 1
  · rw [show ((addr.getD i 0).toNat*256+(addr.getD (i+1) 0).toNat) / 256 = (addr.getD i 0).toNat by
      omega, UInt8.ofNat_toNat]
  · congr 1
    apply UInt8.toNat_inj.mp
    rw [UInt8.toNat_ofNat']
    omega

theorem groupBytes_addressGroups {addr : Bytes} (h : addr.length = 16) :
    groupBytes (addressGroups addr) = addr := by
  have hr : groupBytes (addressGroups addr) = (List.range 16).map fun i => addr.getD i 0 := by
    simp only [groupBytes, addressGroups, List.flatMap_map, encU16_groupAt]
    rfl
  rw [hr]
  apply List.ext_getElem
  · simp [h]
  · intro i h1 h2
    simp [List.getD, h2]

theorem groupBytes_zeros (gs : List ℕ) (h : ∀ g ∈ gs, g = 0) :
    groupBytes gs = List.replicate (2*gs.length) 0 := by
  induction gs with
  | nil => rfl
  | cons g gs ih =>
    rw [h g (by simp), List.length_cons, show 2*(gs.length+1) = 2+2*gs.length by ring,
      List.replicate_add, ← ih fun x hx => h x (by simp [hx])]
    rfl

/-- An address is its groups before a run of zeros, the zeros, and the groups behind. -/
theorem address_around {addr : Bytes} (h : addr.length = 16) {i l : ℕ}
    (hr : Run (IsZero addr) 8 i l) :
    groupBytes ((addressGroups addr).take i) ++ List.replicate (2*l) 0 ++
      groupBytes ((addressGroups addr).drop (i+l)) = addr := by
  have hl := length_addressGroups addr
  have hin := hr.1
  have hz : ∀ g ∈ ((addressGroups addr).drop i).take l, g = 0 := by
    intro g hg
    obtain ⟨j, hj, rfl⟩ := List.mem_iff_getElem.mp hg
    rw [List.length_take, List.length_drop] at hj
    simp only [List.getElem_take, List.getElem_drop, addressGroups, List.getElem_map,
      List.getElem_range]
    exact hr.2 j (by omega)
  have hlen : (((addressGroups addr).drop i).take l).length = l := by
    rw [List.length_take, List.length_drop]
    omega
  have hm := groupBytes_zeros _ hz
  rw [hlen] at hm
  have happ : ∀ x y, groupBytes (x ++ y) = groupBytes x ++ groupBytes y := fun x y => by
    simp [groupBytes]
  rw [← hm, ← happ, ← happ, ← List.drop_drop, List.append_assoc, List.take_append_drop,
    List.take_append_drop, groupBytes_addressGroups h]

theorem ip6StrDecode_noipv4 {addr m : Bytes} (ha : addr.length = 16) (hm : m.length = 16)
    (len : ℕ) (hlen : ip6AddrStrlen ≤ len) :
    ip6StrDecode (ip6StrEncode addr ip6StrNoipv4 len) m =
      ((ip6StrEncode addr ip6StrNoipv4 len).length, addr) := by
  obtain ⟨i, l, hlo, he⟩ := ip6StrEncode_noipv4 addr len hlen
  have hg : ∀ g ∈ addressGroups addr, g < 2^16 := fun g hg => addressGroups_lt hg
  have hl := length_addressGroups addr
  by_cases h2 : 2 ≤ l
  · have hin := hlo.run.1
    have ht : ((addressGroups addr).take i).length = i := by rw [List.length_take]; omega
    have hd : ((addressGroups addr).drop (i+l)).length = 8-(i+l) := by rw [List.length_drop, hl]
    rw [he, if_pos h2, ip6_gap _ _ (fun g h => hg g (List.mem_of_mem_take h))
      (fun g h => hg g (List.mem_of_mem_drop h)) (by omega) (by omega) m hm]
    have hgap : 16-(groupBytes ((addressGroups addr).take i) ++
        groupBytes ((addressGroups addr).drop (i+l))).length = 2*l := by
      rw [List.length_append, length_groupBytes, length_groupBytes, ht, hd]
      omega
    rw [hgap, address_around ha hlo.run]
  · rw [he, if_neg h2, ip6_plain _ hg hl m hm, groupBytes_addressGroups ha]

/-- The plain texts of IPv4 and IPv6 addresses are read back as the addresses. -/
theorem plain_notation_round_trip (addr4 : Ip4Addr) (dst4 : Ip4Addr) (addr6 dst6 : Ip6Addr)
    (len4 len6 : ℕ) (h4 : ip4AddrStrlen ≤ len4) (h6 : ip6AddrStrlen ≤ len6) :
    ip4StrDecode (ip4StrEncode addr4.toList len4) dst4.toList =
        ((ip4StrEncode addr4.toList len4).length, addr4.toList) ∧
      ip6StrDecode (ip6StrEncode addr6.toList ip6StrNoipv4 len6) dst6.toList =
        ((ip6StrEncode addr6.toList ip6StrNoipv4 len6).length, addr6.toList) := by
  refine ⟨?_, ip6StrDecode_noipv4 (by simp) (by simp) len6 h6⟩
  obtain ⟨a, b, c, d, he⟩ : ∃ a b c d, addr4.toList = [a, b, c, d] := by
    have h : addr4.toList.length = 4 := by simp
    match addr4.toList, h with
    | [a, b, c, d], _ => exact ⟨a, b, c, d, rfl⟩
  rw [he, ip4StrDecode_ip4StrEncode a b c d len4 h4 dst4.toList (by simp), patch, List.take_zero,
    List.drop_eq_nil_of_le (by simp)]
  rfl

theorem plain_notation_round_trip_at :
    ip4StrDecode (ip4StrEncode [172, 0, 1, 10] 16) [0, 0, 0, 0] =
        ((ip4StrEncode [172, 0, 1, 10] 16).length, [172, 0, 1, 10]) ∧
      ip6StrDecode (ip6StrEncode (List.replicate 16 0) ip6StrNoipv4 46) (List.replicate 16 9) =
        ((ip6StrEncode (List.replicate 16 0) ip6StrNoipv4 46).length, List.replicate 16 0) :=
  plain_notation_round_trip #v[172, 0, 1, 10] #v[0, 0, 0, 0] (Vector.replicate 16 0)
    (Vector.replicate 16 9) 16 46 le_rfl le_rfl

end DnsPkt.AddressRoundTrip
