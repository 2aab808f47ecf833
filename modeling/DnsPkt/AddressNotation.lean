import Mathlib.Data.List.Chain
import DnsPkt.AddressText
import DnsPkt.LongestRun

/-!
# Canonical notation of IPv6 addresses

The groups of an address, the run of zeros the encoder finds, and the text it
prints around that run. The notation is stated over any texts of the groups in
lowercase hexadecimal without leading zeros.
-/

set_option autoImplicit false

namespace DnsPkt.AddressNotation
open DnsPkt.Octets DnsPkt.ReportText DnsPkt.AddressText DnsPkt.LongestRun

def addressGroups (addr : Bytes) : List ℕ := (List.range 8).map fun k => groupAt addr (2*k)

def IsZero (addr : Bytes) (k : ℕ) : Prop := groupAt addr (2*k) = 0

def colon : Bytes := [58]

structure HexText (v : ℕ) (text : Bytes) : Prop where
  digits : ∀ ch ∈ text, (48 ≤ ch ∧ ch ≤ 57) ∨ (97 ≤ ch ∧ ch ≤ 102)
  value : text.foldl (fun a ch => a*16+(ch.toNat-(if ch ≤ 57 then 48 else 87))) 0 = v
  lead : text.head? = some 48 → text = [48]
  some : text ≠ []

/-- The canonical notation: the leftmost of the longest runs of two or more
zero groups is written as a double colon, every other group as its hexadecimal
text, and neighbours are separated by a colon. -/
structure Canonical (addr text : Bytes) : Prop where
  double_iff : [58, 58] <:+: text ↔ ∃ i, Run (IsZero addr) 8 i 2
  double : ∀ i l, 2 ≤ l → Longest (IsZero addr) 8 i l →
    ∃ ts, List.Forall₂ HexText (addressGroups addr) ts ∧
      text = colon.intercalate (ts.take i) ++ [58, 58] ++ colon.intercalate (ts.drop (i+l))
  plain : (¬ ∃ i, Run (IsZero addr) 8 i 2) →
    ∃ ts, List.Forall₂ HexText (addressGroups addr) ts ∧ text = colon.intercalate ts
  fits : text.length+1 ≤ ip6AddrStrlen

/-- The scan after `n` groups, with the best run at `i` and the run at its end. -/
structure Tracks (s : ZeroScan) (n i l c : ℕ) : Prop where
  zeroPos : s.zeroPos = if l = 0 then -1 else ((2*i : ℕ) : ℤ)
  zeroLen : s.zeroLen = 2*l
  curPos : s.curPos = if c = 0 then -1 else ((2*(n-c) : ℕ) : ℤ)
  curLen : s.curLen = 2*c

theorem Tracks.check {s : ZeroScan} {n i l c : ℕ} (h : Tracks s n i l c) :
    Tracks s.check n (if l < c then n-c else i) (max l c) c := by
  have hl := h.zeroLen
  have hc := h.curLen
  by_cases hlt : l < c
  · rw [if_pos hlt, Nat.max_eq_right hlt.le]
    have hne : c ≠ 0 := by omega
    have hs : s.check = { s with zeroPos := s.curPos, zeroLen := s.curLen } :=
      if_pos (by omega)
    rw [hs]
    exact ⟨by simpa [hne] using h.curPos, hc, h.curPos, hc⟩
  · rw [if_neg hlt, Nat.max_eq_left (by omega)]
    have hs : s.check = s := if_neg (by omega)
    rwa [hs]

def Found (addr : Bytes) (s : ZeroScan) (n : ℕ) : Prop :=
  ∃ i l c, Tracks s n i l c ∧ Trailing (IsZero addr) n c ∧
    Longest (IsZero addr) n (if l < c then n-c else i) (max l c)

theorem Found.visit {addr : Bytes} {s : ZeroScan} {n : ℕ} (h : Found addr s n) :
    Found addr (s.visit (2*n) (groupAt addr (2*n))) (n+1) := by
  obtain ⟨i, l, c, ht, htr, hlo⟩ := h
  have hle := htr.le
  by_cases hz : groupAt addr (2*n) = 0
  · have htr' := htr.extend hz
    refine ⟨i, l, c+1, ⟨?_, ?_, ?_, ?_⟩, htr', ?_⟩
    · simpa [ZeroScan.visit, hz] using ht.zeroPos
    · simpa [ZeroScan.visit, hz] using ht.zeroLen
    · rw [ZeroScan.visit, if_pos hz, if_neg (Nat.succ_ne_zero c)]
      show (if s.curPos = -1 then ((2*n : ℕ) : ℤ) else s.curPos) = _
      rw [ht.curPos]
      by_cases hc : c = 0
      · subst hc
        simp
      · rw [if_neg hc, if_neg (by omega), show n+1-(c+1) = n-c by omega]
    · have := ht.curLen
      simp only [ZeroScan.visit, hz, if_true]
      omega
    · by_cases hlt : l < c+1
      · rw [if_pos hlt, Nat.max_eq_right hlt.le]
        exact hlo.renew htr' (by omega)
      · rw [if_neg hlt, Nat.max_eq_left (by omega)]
        rw [if_neg (by omega), Nat.max_eq_left (by omega)] at hlo
        exact hlo.keep htr' (by omega)
  · have hc := ht.check
    refine ⟨if l < c then n-c else i, max l c, 0, ⟨?_, ?_, ?_, ?_⟩, trailing_stop hz, ?_⟩
    · simpa [ZeroScan.visit, hz] using hc.zeroPos
    · simpa [ZeroScan.visit, hz] using hc.zeroLen
    · simp [ZeroScan.visit, hz]
    · simp [ZeroScan.visit, hz]
    · rw [if_neg (by omega), Nat.max_eq_left (by omega)]
      exact hlo.stop hz

theorem zeroScan_found (addr : Bytes) (n : ℕ) : Found addr (zeroScan addr n) n := by
  induction n with
  | zero => exact ⟨0, 0, 0, ⟨rfl, rfl, rfl, rfl⟩, trailing_zero, longest_zero⟩
  | succ n ih => exact ih.visit

theorem zeroRun_spec (addr : Bytes) :
    ∃ i l, Longest (IsZero addr) 8 i l ∧
      zeroRun addr = (if l ≤ 1 then -1 else ((2*i : ℕ) : ℤ), 2*l) := by
  obtain ⟨i, l, c, ht, -, hlo⟩ := zeroScan_found addr 8
  have hc := ht.check
  refine ⟨_, _, hlo, ?_⟩
  rw [zeroRun]
  simp only [hc.zeroPos, hc.zeroLen]
  congr 1
  split_ifs <;> first | rfl | omega

theorem length_addressGroups (addr : Bytes) : (addressGroups addr).length = 8 := by
  simp [addressGroups]

theorem drop_addressGroups (addr : Bytes) {m : ℕ} (h : m < 8) :
    (addressGroups addr).drop m = groupAt addr (2*m) :: (addressGroups addr).drop (m+1) := by
  have hm : m < (addressGroups addr).length := by simp [length_addressGroups, h]
  rw [List.drop_eq_getElem_cons hm]
  simp [addressGroups]

def joined (gs : List ℕ) : Bytes := colon.intercalate (gs.map uint16Toax)

def followers (gs : List ℕ) : Bytes := gs.flatMap fun g => 58 :: uint16Toax g

theorem joined_cons (g : ℕ) (gs : List ℕ) : joined (g :: gs) = uint16Toax g ++ followers gs := by
  induction gs generalizing g with
  | nil => simp [joined, followers, List.intercalate]
  | cons g' gs ih =>
    have hj : joined (g :: g' :: gs) = uint16Toax g ++ colon ++ joined (g' :: gs) := by
      simp [joined, List.intercalate_cons_cons]
    rw [hj, ih]
    simp [followers, colon]

theorem joined_cons_cons (g g' : ℕ) (gs : List ℕ) :
    joined (g :: g' :: gs) = uint16Toax g ++ 58 :: joined (g' :: gs) := by
  rw [joined_cons, joined_cons]
  simp [followers]

theorem groups_after {addr : Bytes} {zp : ℤ} {zl : ℕ} (k m : ℕ) (hzp : zp < 2*m) (h0 : 0 < m)
    (hk : 8 ≤ m+k) :
    groups addr zp zl 16 k (2*m) = followers ((addressGroups addr).drop m) := by
  induction k generalizing m with
  | zero =>
    rw [groups, List.drop_eq_nil_of_le (by rw [length_addressGroups]; omega)]
    rfl
  | succ k ih =>
    rw [groups]
    by_cases hm : 2*m < 16
    · rw [if_pos hm, if_neg (by push_cast; omega), if_pos (by omega),
        drop_addressGroups addr (by omega), show 2*m+2 = 2*(m+1) by ring,
        ih (m+1) (by push_cast; omega) (by omega) (by omega)]
      simp [followers]
    · rw [if_neg hm, List.drop_eq_nil_of_le (by rw [length_addressGroups]; omega)]
      rfl

theorem groups_gap {addr : Bytes} {z l : ℕ} (k : ℕ) (hz : z+l ≤ 8) (hl : 0 < l) (hk : 8 ≤ z+k) :
    groups addr (2*z : ℕ) (2*l) 16 k (2*z) =
      [58, 58] ++ joined ((addressGroups addr).drop (z+l)) := by
  obtain ⟨k, rfl⟩ : ∃ j, k = j+1 := ⟨k-1, by omega⟩
  rw [groups, if_pos (by omega), if_pos rfl]
  by_cases he : z+l = 8
  · rw [if_pos (by omega), List.drop_eq_nil_of_le (by rw [length_addressGroups]; omega)]
    rfl
  · rw [if_neg (by omega), show 2*z+2*l+2 = 2*(z+l+1) by ring, show 2*z+2*l = 2*(z+l) by ring,
      groups_after k (z+l+1) (by push_cast; omega) (by omega) (by omega),
      drop_addressGroups addr (m := z+l) (by omega), joined_cons]
    simp

theorem groups_before {addr : Bytes} {z l : ℕ} (k m : ℕ) (hz : z+l ≤ 8) (hl : 0 < l) (hm : m ≤ z)
    (h0 : 0 < m) (hk : 8 ≤ m+k) :
    groups addr (2*z : ℕ) (2*l) 16 k (2*m) = followers (((addressGroups addr).take z).drop m) ++
      [58, 58] ++ joined ((addressGroups addr).drop (z+l)) := by
  induction k generalizing m with
  | zero => omega
  | succ k ih =>
    by_cases he : m = z
    · subst he
      rw [groups_gap (k+1) hz hl hk, List.drop_eq_nil_of_le (List.length_take_le _ _)]
      simp [followers]
    · have hd : ((addressGroups addr).take z).drop m =
          groupAt addr (2*m) :: ((addressGroups addr).take z).drop (m+1) := by
        rw [List.drop_take, drop_addressGroups addr (by omega), List.drop_take,
          show z-m = z-(m+1)+1 by omega]
        rfl
      rw [groups, if_pos (by omega), if_neg (by push_cast; omega), if_pos (by omega),
        show 2*m+2 = 2*(m+1) by ring, ih (m+1) (by omega) (by omega) (by omega), hd]
      simp [followers]

/-- The text the encoder prints around a run at group `z`. -/
theorem groups_compressed {addr : Bytes} {z l : ℕ} (hz : z+l ≤ 8) (hl : 0 < l) :
    groups addr (2*z : ℕ) (2*l) 16 8 0 = joined ((addressGroups addr).take z) ++
      [58, 58] ++ joined ((addressGroups addr).drop (z+l)) := by
  cases z with
  | zero =>
    rw [List.take_zero]
    exact groups_gap 8 hz hl (by omega)
  | succ z =>
    have hd := drop_addressGroups addr (m := 0) (by omega)
    rw [List.drop_zero] at hd
    have hne : ((0 : ℕ) : ℤ) ≠ ((2*(z+1) : ℕ) : ℤ) := by omega
    rw [groups, if_pos (by omega), if_neg hne, if_neg (by omega),
      groups_before 7 1 hz hl (by omega) (by omega) (by omega), hd, List.take_succ_cons,
      joined_cons]
    simp

theorem groups_plain (addr : Bytes) (zl : ℕ) :
    groups addr (-1) zl 16 8 0 = joined (addressGroups addr) := by
  have hd := drop_addressGroups addr (m := 0) (by omega)
  rw [List.drop_zero] at hd
  rw [groups, if_pos (by omega), if_neg (by omega), if_neg (by omega),
    groups_after 7 1 (by omega) (by omega) (by omega), hd, joined_cons]
  simp

/-- The text without dotted quads: with the longest run compressed when it has two groups. -/
theorem ip6StrEncode_noipv4 (addr : Bytes) (len : ℕ) (hlen : ip6AddrStrlen ≤ len) :
    ∃ i l, Longest (IsZero addr) 8 i l ∧ ip6StrEncode addr ip6StrNoipv4 len =
      if 2 ≤ l then joined ((addressGroups addr).take i) ++ [58, 58] ++
        joined ((addressGroups addr).drop (i+l)) else joined (addressGroups addr) := by
  obtain ⟨i, l, hlo, hr⟩ := zeroRun_spec addr
  refine ⟨i, l, hlo, ?_⟩
  have he : ip6StrEncode addr ip6StrNoipv4 len =
      groups addr (zeroRun addr).1 (zeroRun addr).2 16 8 0 := by
    simp [ip6StrEncode, hlen]
  rw [he, hr]
  by_cases h2 : 2 ≤ l
  · rw [if_pos h2]
    simp only [if_neg (show ¬ l ≤ 1 by omega)]
    exact groups_compressed hlo.run.1 (by omega)
  · rw [if_neg h2]
    simp only [if_pos (show l ≤ 1 by omega)]
    exact groups_plain addr (2*l)

theorem hexText_digit : ∀ d, d < 16 → HexText d [hexDigit d] := by
  have h : ∀ d, d < 16 → ((48 ≤ hexDigit d ∧ hexDigit d ≤ 57) ∨
      (97 ≤ hexDigit d ∧ hexDigit d ≤ 102)) ∧
      (hexDigit d).toNat-(if hexDigit d ≤ 57 then 48 else 87) = d := by decide
  intro d hd
  obtain ⟨hr, hv⟩ := h d hd
  exact ⟨by simpa using hr, by simpa using hv, by simp, by simp⟩

theorem HexText.push {v d : ℕ} {text : Bytes} (h : HexText v text) (h0 : 0 < v) (hd : d < 16) :
    HexText (v*16+d) (text ++ [hexDigit d]) where
  digits ch hc := by
    rcases List.mem_append.mp hc with hm | hm
    · exact h.digits ch hm
    · exact (hexText_digit d hd).digits ch hm
  value := by
    have hv := (hexText_digit d hd).value
    rw [List.foldl_append, h.value]
    simpa using hv
  lead hl := by
    rw [List.head?_append_of_ne_nil _ h.some] at hl
    have ht := h.lead hl
    have hv := h.value
    rw [ht] at hv
    simp at hv
    omega
  some := by simp

theorem uint16Toax_digit {v : ℕ} (hv : v < 16) : uint16Toax v = [hexDigit v] := by
  rw [uint16Toax, if_neg (by omega), if_neg (by omega), if_neg (by omega), Nat.mod_eq_of_lt hv]
  rfl

theorem uint16Toax_push {v : ℕ} (h : 16 ≤ v) (hv : v < 2^16) :
    uint16Toax v = uint16Toax (v / 16) ++ [hexDigit (v % 16)] := by
  have h8 : v / 2^8 = v / 16 / 2^4 := by omega
  have h12 : v / 2^12 = v / 16 / 2^8 := by omega
  simp only [uint16Toax, Nat.shiftRight_eq_div_pow, h8, h12]
  rw [if_pos (show 0x10 ≤ v from h), if_neg (show ¬ 0x1000 ≤ v / 16 by omega), List.nil_append]
  have hd : v / 2^4 = v / 16 := rfl
  rw [hd]
  by_cases h3 : 0x1000 ≤ v
  · rw [if_pos h3, if_pos (show 0x100 ≤ v by omega), if_pos (show 0x100 ≤ v / 16 by omega),
      if_pos (show 0x10 ≤ v / 16 by omega)]
  · rw [if_neg h3, if_neg (show ¬ 0x100 ≤ v / 16 by omega)]
    by_cases h2 : 0x100 ≤ v
    · rw [if_pos h2, if_pos (show 0x10 ≤ v / 16 by omega)]
    · rw [if_neg h2, if_neg (show ¬ 0x10 ≤ v / 16 by omega)]

theorem uint16Toax_hex (v : ℕ) (hv : v < 2^16) : HexText v (uint16Toax v) := by
  induction v using Nat.strong_induction_on with
  | _ v ih =>
    by_cases h : v < 16
    · rw [uint16Toax_digit h]
      exact hexText_digit v h
    · have hpush := (ih (v / 16) (by omega) (by omega)).push (by omega)
        (Nat.mod_lt v (show 0 < 16 by omega))
      rwa [Nat.div_add_mod', ← uint16Toax_push (by omega) hv] at hpush

theorem length_uint16Toax_le (v : ℕ) : (uint16Toax v).length ≤ 4 := by
  simp only [uint16Toax]
  split_ifs <;> simp

theorem groupAt_lt (addr : Bytes) (i : ℕ) : groupAt addr i < 2^16 := by
  have h0 := (addr.getD i 0).toNat_lt
  have h1 := (addr.getD (i+1) 0).toNat_lt
  simp only [groupAt]
  omega

theorem addressGroups_lt {addr : Bytes} {g : ℕ} (h : g ∈ addressGroups addr) : g < 2^16 := by
  obtain ⟨k, -, rfl⟩ := List.mem_map.mp h
  exact groupAt_lt addr (2*k)

theorem groups_hex (gs : List ℕ) (h : ∀ g ∈ gs, g < 2^16) :
    List.Forall₂ HexText gs (gs.map uint16Toax) := by
  induction gs with
  | nil => exact .nil
  | cons g gs ih =>
    exact .cons (uint16Toax_hex g (h g (by simp))) (ih fun g' hg => h g' (by simp [hg]))

def Single (text : Bytes) : Prop := text.IsChain fun a b => ¬ (a = 58 ∧ b = 58)

theorem Single.not_double {text : Bytes} (h : Single text) : ¬ [58, 58] <:+: text := by
  intro hi
  have := h.infix hi
  simp at this

theorem single_of_not_mem {text : Bytes} (h : 58 ∉ text) : Single text := by
  induction text with
  | nil => exact .nil
  | cons a text ih =>
    simp only [List.mem_cons, not_or] at h
    refine List.isChain_cons.mpr ⟨fun b _ hb => h.1 hb.1.symm, ih h.2⟩

theorem HexText.not_colon {v : ℕ} {text : Bytes} (h : HexText v text) : 58 ∉ text := by
  intro hm
  rcases h.digits 58 hm with ⟨-, h2⟩ | ⟨h1, -⟩
  · exact absurd h2 (by decide)
  · exact absurd h1 (by decide)

/-- Groups joined by colons begin with a digit and have no two colons together. -/
theorem joined_single (gs : List ℕ) (h : ∀ g ∈ gs, g < 2^16) :
    Single (joined gs) ∧ (joined gs).head? ≠ some 58 := by
  induction gs with
  | nil => exact ⟨.nil, by simp [joined, List.intercalate]⟩
  | cons g gs ih =>
    have hx := uint16Toax_hex g (h g (by simp))
    have hs := single_of_not_mem hx.not_colon
    have hhead : (uint16Toax g).head? ≠ some 58 := fun he => hx.not_colon (List.mem_of_head? he)
    obtain ⟨ih1, ih2⟩ := ih fun g' hg => h g' (by simp [hg])
    cases gs with
    | nil => simpa [joined, List.intercalate] using And.intro hs hhead
    | cons g' gs =>
      rw [joined_cons_cons, List.head?_append_of_ne_nil _ hx.some]
      refine ⟨List.isChain_append.mpr ⟨hs, List.isChain_cons.mpr ⟨?_, ih1⟩, ?_⟩, hhead⟩
      · rintro b hb ⟨-, rfl⟩
        exact ih2 hb
      · rintro a ha b - ⟨rfl, -⟩
        exact hx.not_colon (List.mem_of_getLast? ha)

theorem length_followers_le (gs : List ℕ) : (followers gs).length ≤ 5*gs.length := by
  induction gs with
  | nil => simp [followers]
  | cons g gs ih =>
    have := length_uint16Toax_le g
    simp only [followers, List.flatMap_cons, List.length_append, List.length_cons] at ih ⊢
    omega

theorem length_joined_le (gs : List ℕ) : (joined gs).length ≤ 5*gs.length := by
  cases gs with
  | nil => simp [joined, List.intercalate]
  | cons g gs =>
    have h1 := length_uint16Toax_le g
    have h2 := length_followers_le gs
    simp only [joined_cons, List.length_append, List.length_cons]
    omega

/-- The text without dotted quads is the canonical notation of its address. -/
theorem ip6StrEncode_canonical (addr : Ip6Addr) (len : ℕ) (hlen : ip6AddrStrlen ≤ len) :
    Canonical addr.toList (ip6StrEncode addr.toList ip6StrNoipv4 len) := by
  obtain ⟨i, l, hlo, he⟩ := ip6StrEncode_noipv4 addr.toList len hlen
  set gs := addressGroups addr.toList
  have hg : ∀ g ∈ gs, g < 2^16 := fun g hg => addressGroups_lt hg
  have hl : gs.length = 8 := length_addressGroups _
  by_cases h2 : 2 ≤ l
  · rw [if_pos h2] at he
    refine ⟨?_, ?_, ?_, ?_⟩
    · exact iff_of_true (he ▸ ⟨_, _, rfl⟩) ((hlo.exists_iff 2).mpr h2)
    · intro i' l' hl' hlo'
      obtain ⟨rfl, rfl⟩ := hlo.unique hlo' (by omega)
      refine ⟨gs.map uint16Toax, groups_hex gs hg, ?_⟩
      rw [he, ← List.map_take, ← List.map_drop]
      rfl
    · exact fun hno => absurd ((hlo.exists_iff 2).mpr h2) hno
    · have h1 := length_joined_le (gs.take i)
      have h2 := length_joined_le (gs.drop (i+l))
      have hin := hlo.run.1
      simp only [List.length_take, List.length_drop, hl] at h1 h2
      simp only [he, ip6AddrStrlen, List.length_append, List.length_cons, List.length_nil]
      omega
  · rw [if_neg h2] at he
    have hno : ¬ ∃ i, Run (IsZero addr.toList) 8 i 2 := fun hr => h2 ((hlo.exists_iff 2).mp hr)
    refine ⟨?_, ?_, ?_, ?_⟩
    · exact iff_of_false (he ▸ (joined_single gs hg).1.not_double) hno
    · intro i' l' hl' hlo'
      exact absurd ⟨i', hlo'.run.prefix hl'⟩ hno
    · exact fun _ => ⟨gs.map uint16Toax, groups_hex gs hg, he⟩
    · have := length_joined_le gs
      simp only [he, ip6AddrStrlen]
      omega

theorem documentation_address_canonical :
    Canonical [0x20, 1, 0xd, 0xb8, 0, 0, 0, 0, 0, 0, 0, 0, 0, 0, 0, 7]
      (ip6StrEncode [0x20, 1, 0xd, 0xb8, 0, 0, 0, 0, 0, 0, 0, 0, 0, 0, 0, 7] ip6StrNoipv4 46) :=
  ip6StrEncode_canonical #v[0x20, 1, 0xd, 0xb8, 0, 0, 0, 0, 0, 0, 0, 0, 0, 0, 0, 7] 46 le_rfl

end DnsPkt.AddressNotation
