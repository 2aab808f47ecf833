import DnsPkt.AddressMeaning

/-!
# Addresses and names as answers

`ipstr_decode` of `dns_gen.c` tries an answer of the command line as an IPv4
address, as an IPv6 address and as a name, in one buffer. What the two decoders
take for an address is more than the texts of addresses.
-/

set_option autoImplicit false

namespace DnsPkt.AnswerArguments
open DnsPkt.Octets DnsPkt.Protocol DnsPkt.AddressText DnsPkt.QuadText DnsPkt.ColonText
open DnsPkt.AddressBounds DnsPkt.AddressGrammar DnsPkt.AddressScan DnsPkt.AddressMeaning

abbrev dnsTypeA : ℕ := 1
abbrev dnsTypeCname : ℕ := 5
abbrev dnsTypeAaaa : ℕ := 28

/-- The buffer `tmp` of `add_sect`, with what was in it before. -/
abbrev AnswerBuf := Vector UInt8 (dnsNameMaxlen+1)

def sliceTocstr (val dst : Bytes) (len : ℕ) : Option Bytes :=
  if len < val.length+1 then none else some (patch dst 0 (val ++ [0]))

def ipstrDecode (str dst : Bytes) (len : ℕ) : ℕ × Bytes :=
  let (n, quad) := ip4StrDecode str (dst.take 4)
  let dst := quad ++ dst.drop 4
  if n ≠ 0 then (dnsTypeA, dst) else
  let (n, addr) := ip6StrDecode str (dst.take 16)
  let dst := addr ++ dst.drop 16
  if n ≠ 0 then (dnsTypeAaaa, dst) else
  (sliceTocstr str dst len).elim (0, dst) fun dst => (dnsTypeCname, dst)

/-- Only a dotted quad becomes an IPv4 address, with the four values stored, and only the text
of an IPv6 address becomes one. Everything else is a name, and is copied. -/
def Classified (str : Bytes) : Prop :=
  ∀ dst : AnswerBuf, let r := ipstrDecode str dst.toList (dnsNameMaxlen+1)
    (r.1 = dnsTypeA → ∃ os, IsQuad os ∧ str = quadText os ∧ r.2.take 4 = os.map octetOf) ∧
    (r.1 = dnsTypeAaaa → ∃ addr, Denotes str addr) ∧
    (r.1 ≠ dnsTypeA → r.1 ≠ dnsTypeAaaa →
      r.1 = dnsTypeCname ∧ r.2.take (str.length+1) = str ++ [0])

section Decode

variable {s d : Bytes} {n : ℕ}

theorem ipstrDecode_quad {os : List Bytes} {k : ℕ} (h : QuadFront s os k) (hd : 4 ≤ d.length) :
    ipstrDecode s d n = (dnsTypeA, os.map octetOf ++ d.drop 4) := by
  have hlen : (d.take 4).length = 4 := by
    rw [List.length_take]
    omega
  have hos : (os.map octetOf).length = 4 := by rw [List.length_map, (QuadFront.isQuad h).1]
  have hpatch : patch (d.take 4) 0 (os.map octetOf) = os.map octetOf := by
    rw [patch, hos, List.drop_eq_nil_of_le (by omega), List.take_zero, List.nil_append,
      List.append_nil]
  have hk := h.le
  rw [ipstrDecode, ip4StrDecode_front h hlen.ge, hpatch]
  exact if_pos (by omega)

theorem ipstrDecode_overlong {os : List Bytes} (h : Overlong s os) (hd : 4 ≤ d.length) :
    (ipstrDecode s d n).1 = dnsTypeA := by
  have hlen : (d.take 4).length = 4 := by
    rw [List.length_take]
    omega
  rw [ipstrDecode, ip4StrDecode_overlong h hlen.ge]
  simp [sizeMax]

/-- Behind the first decoder the second one has the first sixteen bytes of the buffer. -/
theorem ipstrDecode_refused (hd : 16 ≤ d.length)
    (h4 : (ip4StrDecode s (d.take 4)).1 = 0) : ∃ m m' : Bytes, m.length = 16 ∧
      ipstrDecode s d n = if (ip6StrDecode s m).1 ≠ 0 then (dnsTypeAaaa, m')
        else (sliceTocstr s m' n).elim (0, m') fun d => (dnsTypeCname, d) := by
  have hquad := length_ip4StrDecode (t := s) (m := d.take 4) (by rw [List.length_take]; omega)
  rw [List.length_take] at hquad
  have hm : (((ip4StrDecode s (d.take 4)).2 ++ d.drop 4).take 16).length = 16 := by
    rw [List.length_take, List.length_append, List.length_drop]
    omega
  refine ⟨_, (ip6StrDecode s (((ip4StrDecode s (d.take 4)).2 ++ d.drop 4).take 16)).2 ++
    ((ip4StrDecode s (d.take 4)).2 ++ d.drop 4).drop 16, hm, ?_⟩
  rw [ipstrDecode]
  exact if_neg (not_not.mpr h4)

theorem sliceTocstr_fits (m : Bytes) (h : s.length+1 ≤ n) :
    ∃ m', sliceTocstr s m n = some m' ∧ m'.take (s.length+1) = s ++ [0] := by
  refine ⟨patch m 0 (s ++ [0]), if_neg (by omega), ?_⟩
  have hlen : (s ++ [0]).length = s.length+1 := by simp
  rw [patch, List.take_zero, List.nil_append, ← hlen, List.take_left]

end Decode

section Classify

variable {s : Bytes} {r : Reading}

/-- A text with a dot behind its first digits has no colon that is looked at. -/
theorem front_segs (hr : Reads s r) {os : List Bytes} {n : ℕ} (h : QuadFront s os n) :
    r.segs = [] := by
  obtain ⟨first, last, rest, rfl, hl, ho, rfl, -⟩ := h
  match first, hl with
  | [a, b, c], _ =>
    have hhex : ∀ ch ∈ a, isHex ch = true := fun ch hch =>
      numeral_hex ((ho a (by simp)).2.2.1 ch hch)
    have hr' : Reads (dotted [a, b, c] ++ last ++ rest)
        ⟨[], a, 46 :: (dotted [b, c] ++ last ++ rest)⟩ := by
      refine ⟨?_, by simp, hhex, trivial, by simp [dot_not_hex]⟩
      rw [dotted_cons]
      simp [segsText, Reading.ending]
    rw [reads_unique hr hr']

theorem taken_accepted (hr : Reads s r) (ht : Taken r) (hlen : s.length < 2^64) {m : Bytes}
    (hm : m.length = 16) : (ip6StrDecode s m).1 ≠ 0 := by
  have hpos := length_segsText_pos ht
  by_cases hdot : r.rest.head? = some 46
  · rcases (ht.quad hdot).2.2 with ⟨os, k, hq⟩ | ⟨os, hq⟩
    · rw [taken_quad hr ht hdot hq hlen hm]
      simp only
      omega
    · rw [taken_stale hr ht hdot hq hlen hm]
      simp only
      omega
  · rw [taken_plain hr ht hdot hm]
    simp only
    omega

theorem overlong_no_quad {os os' : List Bytes} (h : Overlong s os) (hos : IsQuad os') :
    s ≠ quadText os' := by
  rintro rfl
  have hm : (List.replicate 4 (0 : UInt8)).length = 4 := rfl
  have hfront := quadFront_quadText hos
  have heq := (ip4StrDecode_front hfront hm.ge).symm.trans (ip4StrDecode_overlong h hm.ge)
  have hn := hfront.le
  have := congrArg Prod.fst heq
  simp only [sizeMax] at this
  omega

theorem classified_of (hlen : s.length ≤ dnsNameMaxstr) (hover : ∀ os, ¬Overlong s os)
    (hfront : (∃ os n, QuadFront s os n) → ∃ os, IsQuad os ∧ s = quadText os)
    (hform : ∀ r, Reads s r → Taken r → Formed r) : Classified s := by
  intro dst
  have hd : dst.toList.length = 256 := by simp
  have hs : s.length ≤ 253 := hlen
  have hfits : s.length+1 ≤ dnsNameMaxlen+1 := by
    simp only [dnsNameMaxlen]
    omega
  rcases ip4_cases s (dst.toList.take 4) (by rw [List.length_take]; omega) with
    ⟨m', hz⟩ | ⟨os, ho⟩ | hq
  · obtain ⟨m, m', hm, hres⟩ := ipstrDecode_refused (s := s) (d := dst.toList)
      (n := dnsNameMaxlen+1) (by omega) (by rw [hz])
    obtain ⟨r, hr⟩ := reads_total s
    by_cases ht : Taken r
    · rw [if_pos (taken_accepted hr ht (by omega) hm)] at hres
      rw [hres]
      refine ⟨nofun, fun _ => (denotes_iff_formed hr ht).mpr (hform r hr ht), fun _ h =>
        absurd rfl h⟩
    · rw [if_neg (by simpa using not_taken hr ht (by omega) hm)] at hres
      obtain ⟨m'', hcopy, htake⟩ := sliceTocstr_fits (n := dnsNameMaxlen+1) m' hfits
      rw [hcopy] at hres
      rw [hres]
      exact ⟨nofun, nofun, fun _ _ => ⟨rfl, htake⟩⟩
  · exact absurd ho (hover os)
  · obtain ⟨os, hos, rfl⟩ := hfront hq
    rw [ipstrDecode_quad (quadFront_quadText hos) (by omega)]
    refine ⟨fun _ => ⟨os, hos, rfl, ?_⟩, nofun, fun h => absurd rfl h⟩
    have hquad : (os.map octetOf).length = 4 := by rw [List.length_map, hos.1]
    rw [← hquad]
    exact List.take_left

theorem quad_of_classified (h : Classified s) (dst : AnswerBuf)
    (hA : (ipstrDecode s dst.toList (dnsNameMaxlen+1)).1 = dnsTypeA) :
    ∃ os, IsQuad os ∧ s = quadText os := by
  obtain ⟨os, hos, hs, -⟩ := (h dst).1 hA
  exact ⟨os, hos, hs⟩

theorem formed_of_classified (h : Classified s) (dst : AnswerBuf) (hlen : s.length ≤ dnsNameMaxstr)
    (hover : ∀ os, ¬Overlong s os) (hr : Reads s r) (ht : Taken r) : Formed r := by
  have hs : s.length ≤ 253 := hlen
  have hd : dst.toList.length = 256 := by simp
  rcases ip4_cases s (dst.toList.take 4) (by rw [List.length_take]; omega) with
    ⟨m', hz⟩ | ⟨os, ho⟩ | ⟨os, n, hq⟩
  · obtain ⟨m, m', hm, hres⟩ := ipstrDecode_refused (s := s) (d := dst.toList)
      (n := dnsNameMaxlen+1) (by omega) (by rw [hz])
    rw [if_pos (taken_accepted hr ht (by omega) hm)] at hres
    have hAaaa := (h dst).2.1
    rw [hres] at hAaaa
    exact (denotes_iff_formed hr ht).mp (hAaaa rfl)
  · exact absurd ho (hover os)
  · exact absurd (front_segs hr hq) (taken_segs ht)

end Classify

/-- An answer is classified correctly where no four digits end a row of octets before a fourth
octet does, where nothing stands behind four octets, and where an IPv6 text that is taken is
well formed. -/
theorem classified_iff (s : Bytes) (hlen : s.length ≤ dnsNameMaxstr) : Classified s ↔
    (∀ os, ¬Overlong s os) ∧
    ((∃ os n, QuadFront s os n) → ∃ os, IsQuad os ∧ s = quadText os) ∧
    ∀ r, Reads s r → Taken r → Formed r := by
  constructor
  · intro h
    have dst : AnswerBuf := Vector.replicate 256 0
    have hd : dst.toList.length = 256 := by simp
    have hover : ∀ os, ¬Overlong s os := by
      intro os ho
      obtain ⟨os', hos, hs⟩ := quad_of_classified h dst (ipstrDecode_overlong ho (by omega))
      exact overlong_no_quad ho hos hs
    refine ⟨hover, ?_, fun r hr ht => formed_of_classified h dst hlen hover hr ht⟩
    rintro ⟨os, n, hq⟩
    exact quad_of_classified h dst (by rw [ipstrDecode_quad hq (by omega)])
  · rintro ⟨hover, hfront, hform⟩
    exact classified_of hlen hover hfront hform

theorem name_classified : Classified [97, 46, 98] := by
  refine (classified_iff [97, 46, 98] (by decide)).mpr ⟨fun os ho => ?_, ?_, fun r hr ht => ?_⟩
  · have := (ip4StrDecode_sizeMax_iff [97, 46, 98] [0, 0, 0, 0] (by decide)).mpr ⟨os, ho⟩
    revert this
    decide +kernel
  · rintro ⟨os, n, hq⟩
    have hzero : (ip4StrDecode [97, 46, 98] [0, 0, 0, 0]).1 = 0 := by decide +kernel
    rw [ip4StrDecode_front hq (by decide)] at hzero
    exact absurd hzero (by have := hq.le; omega)
  · have hread : Reads [97, 46, 98] ⟨[], [97], [46, 98]⟩ :=
      ⟨rfl, by simp, by simp [isHex, isNumeral], trivial, by simp [dot_not_hex]⟩
    obtain rfl := reads_unique hread hr
    exact absurd rfl (taken_segs ht)

/-- The host name `2024.example.com` becomes an IPv4 address. -/
theorem year_name_not_classified : ¬Classified
    [50, 48, 50, 52, 46, 101, 120, 97, 109, 112, 108, 101, 46, 99, 111, 109] := by
  intro h
  obtain ⟨os, hos, hs, -⟩ := (h (Vector.replicate 256 0)).1 (by decide +kernel)
  have hmem : (101 : UInt8) ∈ quadText os := by
    rw [← hs]
    decide
  rcases mem_quadText hos hmem with hnum | hdot
  · revert hnum
    decide
  · revert hdot
    decide

end DnsPkt.AnswerArguments
