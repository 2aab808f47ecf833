import DnsPkt.GeneratedFrame

/-!
# The internet checksum

`ip_checksum` adds the words of a buffer, folds the carries back and takes the
complement. It adds a last odd byte as it is, where the checksum of RFC 1071
puts it in the high half of a word.
-/

set_option autoImplicit false

namespace DnsPkt.InternetChecksum
open DnsPkt.Octets DnsPkt.GeneratedFrame

def rfc1071 (b : Bytes) : ℕ := 0xffff-onesSum b

/-! Sums modulo `2^16-1`. Only zero stands for itself, every other multiple is
represented by `0xffff`. -/

def folded (x : ℕ) : ℕ := if x = 0 then 0 else (x-1) % 0xffff+1

theorem folded_lt (x : ℕ) : folded x < 2^16 := by
  rw [folded]
  split <;> omega

theorem folded_small {x : ℕ} (h : x < 2^16) : folded x = x := by
  rw [folded]
  split <;> omega

theorem folded_fold (x : ℕ) : folded (x % 2^16+x/2^16) = folded x := by
  rw [folded, folded]
  by_cases h : x = 0
  · rw [if_pos h, if_pos (by omega)]
  · rw [if_neg h, if_neg (by omega)]
    omega

theorem folded_add (x y : ℕ) : folded (folded x+y) = folded (x+y) := by
  by_cases h : x = 0
  · rw [h, folded_small (Nat.two_pow_pos 16)]
  · have hx : folded x = (x-1) % 0xffff+1 := if_neg h
    rw [hx, folded, folded, if_neg (by omega), if_neg (by omega)]
    omega

theorem folded_complement (x : ℕ) : folded (x+(0xffff-folded x)) = 0xffff := by
  by_cases h : x = 0
  · rw [h]
    rfl
  · have hx : folded x = (x-1) % 0xffff+1 := if_neg h
    rw [folded, if_neg (by omega), hx]
    omega

/-- A byte has the same weight in both halves of a word only if it is zero. -/
theorem folded_swap {x y : ℕ} (hy : y < 256) : folded (x+y) = folded (x+256*y) ↔ y = 0 := by
  constructor
  · intro h
    by_contra hpos
    rw [folded, folded, if_neg (by omega), if_neg (by omega)] at h
    omega
  · rintro rfl
    rfl

theorem foldSum_eq {k sum : ℕ} (h : sum ≤ k) : foldSum k sum = folded sum := by
  induction k generalizing sum with
  | zero =>
    rw [foldSum, folded_small (by omega)]
  | succ k ih =>
    rw [foldSum]
    by_cases hs : sum/2^16 = 0
    · rw [if_pos hs, folded_small (by omega)]
    · rw [if_neg hs, ih (by omega), folded_fold]

theorem onesAdd_eq {a b : ℕ} (ha : a < 2^16) (hb : b < 2^16) : onesAdd a b = folded (a+b) := by
  rw [← folded_fold, folded_small (by omega), onesAdd]

def wordSum : Bytes → ℕ
  | hi :: lo :: rest => hi.toNat*256+lo.toNat+wordSum rest
  | [_] => 0
  | [] => 0

def oddByte : Bytes → ℕ
  | _ :: _ :: rest => oddByte rest
  | [x] => x.toNat
  | [] => 0

theorem wordSum_le (b : Bytes) : wordSum b+0xffff*(b.length % 2) ≤ 0xffff*b.length := by
  induction b using oddByte.induct with
  | case1 hi lo rest ih =>
    have h1 := hi.toNat_lt
    have h2 := lo.toNat_lt
    rw [wordSum, List.length_cons, List.length_cons]
    omega
  | case2 x => simp [wordSum]
  | case3 => simp [wordSum]

theorem oddByte_lt (b : Bytes) : oddByte b < 256 := by
  induction b using oddByte.induct with
  | case1 hi lo rest ih => exact ih
  | case2 x => exact x.toNat_lt
  | case3 => exact Nat.zero_lt_succ 255

theorem oddByte_eq_zero (b : Bytes) :
    oddByte b = 0 ↔ b.length % 2 = 0 ∨ b.getLast? = some 0 := by
  induction b using oddByte.induct with
  | case1 hi lo rest ih =>
    have hlast : (hi :: lo :: rest).getLast? = some 0 ↔ rest = [] ∧ lo = 0 ∨
        rest.getLast? = some 0 := by
      cases rest <;> simp [List.getLast?_cons_cons]
    rw [oddByte, ih, hlast, List.length_cons, List.length_cons, Nat.add_assoc,
      Nat.add_mod_right]
    constructor
    · rintro (h | h)
      · exact .inl h
      · exact .inr (.inr h)
    · rintro (h | ⟨rfl, -⟩ | h)
      · exact .inl h
      · exact .inl rfl
      · exact .inr h
  | case2 x => simp [oddByte, ← UInt8.toNat_inj]
  | case3 => simp [oddByte]

/-- A field of two bytes after an even number of bytes is a word of the buffer. -/
theorem sums_append (pre rest : Bytes) (h : pre.length % 2 = 0) :
    wordSum (pre ++ rest) = wordSum pre+wordSum rest ∧ oddByte (pre ++ rest) = oddByte rest := by
  induction pre using oddByte.induct with
  | case1 hi lo pre ih =>
    rw [List.length_cons, List.length_cons, Nat.add_assoc, Nat.add_mod_right] at h
    obtain ⟨hw, ho⟩ := ih h
    rw [List.cons_append, List.cons_append, wordSum, wordSum, oddByte, hw]
    exact ⟨(Nat.add_assoc ..).symm, ho⟩
  | case2 x => simp at h
  | case3 => exact ⟨(Nat.zero_add _).symm, rfl⟩

theorem sumWords_total (b : Bytes) (sum : ℕ) (h : sum+wordSum b+oddByte b < 2^32) :
    sumWords b sum = sum+wordSum b+oddByte b := by
  induction b, sum using sumWords.induct with
  | case1 hi lo rest sum ih =>
    rw [wordSum, oddByte] at h
    have hlt : sum+(hi.toNat*256+lo.toNat) < 2^32 := by omega
    rw [Nat.mod_eq_of_lt hlt] at ih
    rw [sumWords, wordSum, oddByte, Nat.mod_eq_of_lt hlt, ih (by omega)]
    omega
  | case2 x sum =>
    rw [wordSum, oddByte, Nat.add_zero] at h
    rw [sumWords, wordSum, oddByte, Nat.add_zero, Nat.mod_eq_of_lt h]
  | case3 sum => rfl

theorem onesSum_from (b : Bytes) (a : ℕ) (ha : a < 2^16) :
    (words16 b).foldl onesAdd a = folded (a+wordSum b+256*oddByte b) := by
  induction b using oddByte.induct generalizing a with
  | case1 hi lo rest ih =>
    have h1 := hi.toNat_lt
    have h2 := lo.toNat_lt
    have hword : hi.toNat*256+lo.toNat < 2^16 := by omega
    have hsum : a+(hi.toNat*256+lo.toNat)+(wordSum rest+256*oddByte rest) =
        a+wordSum (hi :: lo :: rest)+256*oddByte (hi :: lo :: rest) := by
      rw [wordSum, oddByte]
      omega
    rw [words16, List.foldl_cons, onesAdd_eq ha hword, ih _ (folded_lt _), Nat.add_assoc,
      folded_add, hsum]
  | case2 x =>
    have h := x.toNat_lt
    have hword : x.toNat*256 < 2^16 := by omega
    rw [words16, List.foldl_cons, List.foldl_nil, onesAdd_eq ha hword, wordSum, oddByte,
      Nat.add_zero, Nat.mul_comm]
  | case3 => exact (folded_small ha).symm

theorem rfc1071_eq (b : Bytes) : rfc1071 b = 0xffff-folded (wordSum b+256*oddByte b) := by
  rw [rfc1071, onesSum, onesSum_from b 0 (Nat.two_pow_pos 16), Nat.zero_add]

theorem ipChecksum_eq {b : Bytes} (h : b.length ≤ 65535) :
    ipChecksum b = 0xffff-folded (wordSum b+oddByte b) := by
  have hw := wordSum_le b
  have ho := oddByte_lt b
  have hlt := folded_lt (wordSum b+oddByte b)
  have hsum := sumWords_total b 0 (by omega)
  rw [Nat.zero_add] at hsum
  rw [ipChecksum, hsum, foldSum_eq (Nat.le_refl _)]
  omega

/-- The code computes the checksum of RFC 1071 where no odd byte is left over, or a zero. -/
theorem ipChecksum_rfc1071 {b : Bytes} (h : b.length ≤ 65535) :
    ipChecksum b = rfc1071 b ↔ oddByte b = 0 := by
  have h1 := folded_lt (wordSum b+oddByte b)
  have h2 := folded_lt (wordSum b+256*oddByte b)
  rw [ipChecksum_eq h, rfc1071_eq, ← @folded_swap (wordSum b) _ (oddByte_lt b)]
  omega

theorem wordSum_encU16 {c : ℕ} (hc : c < 2^16) (rest : Bytes) :
    wordSum (encU16 (UInt16.ofNat c) ++ rest) = c+wordSum rest := by
  have hword := word_htons c
  rw [Nat.mod_eq_of_lt hc] at hword
  change _+wordSum rest = _
  rw [hword]

/-- A buffer whose own checksum is stored in a zero field is checked by it. -/
theorem ipChecksum_stored {b : Bytes} {off : ℕ} (h : b.length ≤ 65535) (heven : off % 2 = 0)
    (hzero : slice b off 2 = [0, 0]) :
    ipChecksum (patch b off (encU16 (UInt16.ofNat (ipChecksum b)))) = 0 := by
  have hlen : off+2 ≤ b.length := by
    have hl := congrArg List.length hzero
    rw [slice, List.length_take, List.length_drop] at hl
    simp only [List.length_cons, List.length_nil] at hl
    omega
  have hpre : (b.take off).length % 2 = 0 := by
    rw [List.length_take, Nat.min_eq_left (by omega)]
    exact heven
  have hsplit : b = b.take off ++ ([0, 0] ++ b.drop (off+2)) := by
    rw [← hzero, slice, ← List.drop_drop, List.take_append_drop, List.take_append_drop]
  obtain ⟨hw, ho⟩ := sums_append (b.take off) ([0, 0] ++ b.drop (off+2)) hpre
  rw [← hsplit] at hw ho
  have hc := ipChecksum_eq h
  have hlt := folded_lt (wordSum b+oddByte b)
  generalize ipChecksum b = c at hc
  obtain ⟨hw', ho'⟩ :=
    sums_append (b.take off) (encU16 (UInt16.ofNat c) ++ b.drop (off+2)) hpre
  rw [wordSum_encU16 (by omega)] at hw'
  have hpatch : patch b off (encU16 (UInt16.ofNat c)) =
      b.take off ++ (encU16 (UInt16.ofNat c) ++ b.drop (off+2)) := by
    rw [patch, length_encU16, List.append_assoc]
  have hstored : (patch b off (encU16 (UInt16.ofNat c))).length = b.length :=
    length_patch b off _ hlen
  have hsums : wordSum (patch b off (encU16 (UInt16.ofNat c)))+
      oddByte (patch b off (encU16 (UInt16.ofNat c))) =
        wordSum b+oddByte b+(0xffff-folded (wordSum b+oddByte b)) := by
    rw [hpatch, hw', ho', ← hc, hw, ho]
    have hz : wordSum ([0, 0] ++ b.drop (off+2)) = wordSum (b.drop (off+2)) := Nat.zero_add _
    have hz' : oddByte ([0, 0] ++ b.drop (off+2)) = oddByte (b.drop (off+2)) := rfl
    have hz'' : oddByte (encU16 (UInt16.ofNat c) ++ b.drop (off+2)) =
      oddByte (b.drop (off+2)) := rfl
    omega
  rw [ipChecksum_eq (by omega), hsums, folded_complement]

/-- The checksum law, for the buffers it holds of. -/
theorem checksum_law_iff (b : Bytes) (h : b.length ≤ 65535) :
    (ipChecksum b = rfc1071 b ∧ ∀ off, off % 2 = 0 → slice b off 2 = [0, 0] →
      ipChecksum (patch b off (encU16 (UInt16.ofNat (ipChecksum b)))) = 0) ↔
    b.length % 2 = 0 ∨ b.getLast? = some 0 := by
  rw [← oddByte_eq_zero, ← ipChecksum_rfc1071 h]
  constructor
  · rintro ⟨hsum, -⟩
    exact hsum
  · intro hsum
    exact ⟨hsum, fun off heven hzero => ipChecksum_stored h heven hzero⟩

theorem even_buffer_lawful : ipChecksum [0x45, 0, 0, 0] = rfc1071 [0x45, 0, 0, 0] :=
  ((checksum_law_iff [0x45, 0, 0, 0] (by decide)).mpr (.inl rfl)).1

theorem odd_byte_misplaced : ipChecksum [1] = 0xfffe ∧ rfc1071 [1] = 0xfeff := ⟨rfl, rfl⟩

end DnsPkt.InternetChecksum
