import DnsPkt.Octets

/-!
# Compressed domain names

A name on the wire is a sequence of labels that ends at a zero byte, where
any label position may hold a two-byte pointer to another position instead.
`Expands` follows pointers without a limit. `Reads` is the same walk with a
bound on label bytes, a least pointer target, the number of pointers that
were followed and the dotted text that a reader prints when it looks one
byte ahead for the separator. `nameEnd` only skips the bytes in place.
-/

set_option autoImplicit false

namespace DnsPkt.WireName
open DnsPkt.Octets

def target (hi lo : UInt8) : ℕ := (hi.toNat % 64) * 256 + lo.toNat

inductive Expands (pkt : Bytes) : ℕ → List Bytes → Prop
  | root {off : ℕ} (h : pkt[off]? = some 0) : Expands pkt off []
  | label {off : ℕ} {ls : List Bytes} (len : UInt8) (h : pkt[off]? = some len)
      (hpos : 0 < len.toNat) (hle : len.toNat ≤ 63) (hin : off+1+len.toNat ≤ pkt.length)
      (rest : Expands pkt (off+1+len.toNat) ls) :
      Expands pkt off (slice pkt (off+1) len.toNat :: ls)
  | pointer {off : ℕ} {ls : List Bytes} (hi lo : UInt8) (h1 : pkt[off]? = some hi)
      (hh : 192 ≤ hi.toNat) (h2 : pkt[off+1]? = some lo)
      (rest : Expands pkt (target hi lo) ls) : Expands pkt off ls

theorem Expands.unique {pkt : Bytes} {off : ℕ} {ls ls' : List Bytes} (h : Expands pkt off ls)
    (h' : Expands pkt off ls') : ls = ls' := by
  induction h generalizing ls' with
  | root h =>
    cases h' with
    | root => rfl
    | label len g hpos =>
      obtain rfl : 0 = len := get_inj h g
      simp at hpos
    | pointer hi lo g hh =>
      obtain rfl : 0 = hi := get_inj h g
      simp at hh
  | label len h hpos hle hin rest ih =>
    cases h' with
    | root g =>
      obtain rfl : len = 0 := get_inj h g
      simp at hpos
    | label len' g _ _ _ rest' =>
      obtain rfl : len = len' := get_inj h g
      rw [ih rest']
    | pointer hi lo g hh =>
      obtain rfl : len = hi := get_inj h g
      omega
  | pointer hi lo h1 hh h2 rest ih =>
    cases h' with
    | root g =>
      obtain rfl : hi = 0 := get_inj h1 g
      simp at hh
    | label len g _ hle =>
      obtain rfl : hi = len := get_inj h1 g
      omega
    | pointer hi' lo' g1 _ g2 rest' =>
      obtain rfl : hi = hi' := get_inj h1 g1
      obtain rfl : lo = lo' := get_inj h2 g2
      exact ih rest'

def separator (next : UInt8) : Bytes := if next = 0 then [] else [46]

inductive Reads (M T : ℕ) (pkt : Bytes) : ℕ → ℕ → List Bytes → Bytes → Prop
  | root {off : ℕ} (h : pkt[off]? = some 0) : Reads M T pkt off 0 [] []
  | label {off j : ℕ} {ls : List Bytes} {text : Bytes} (len next : UInt8)
      (h : pkt[off]? = some len) (hpos : 0 < len.toNat) (hle : len.toNat ≤ M)
      (hnp : len.toNat < 192) (hnext : pkt[off+1+len.toNat]? = some next)
      (rest : Reads M T pkt (off+1+len.toNat) j ls text) :
      Reads M T pkt off j (slice pkt (off+1) len.toNat :: ls)
        (slice pkt (off+1) len.toNat ++ (separator next ++ text))
  | pointer {off j : ℕ} {ls : List Bytes} {text : Bytes} (hi lo : UInt8)
      (h1 : pkt[off]? = some hi) (hh : 192 ≤ hi.toNat) (h2 : pkt[off+1]? = some lo)
      (ht : T ≤ target hi lo) (rest : Reads M T pkt (target hi lo) j ls text) :
      Reads M T pkt off (j+1) ls text

theorem Reads.lt {M T : ℕ} {pkt : Bytes} {off j : ℕ} {ls : List Bytes} {text : Bytes}
    (h : Reads M T pkt off j ls text) : off < pkt.length := by
  cases h with
  | root h => exact get_lt h
  | label len next h => exact get_lt h
  | pointer hi lo h1 => exact get_lt h1

theorem Reads.extend {M T : ℕ} {a b : Bytes} (hp : a <+: b) {off j : ℕ} {ls : List Bytes}
    {text : Bytes} (h : Reads M T a off j ls text) : Reads M T b off j ls text := by
  induction h with
  | root h => exact .root (get_extend hp h)
  | label len next h hpos hle hnp hnext rest ih =>
    have hin := get_lt hnext
    rw [← slice_extend hp _ _ (by omega)]
    exact .label len next (get_extend hp h) hpos hle hnp (get_extend hp hnext) ih
  | pointer hi lo h1 hh h2 ht rest ih =>
    exact .pointer hi lo (get_extend hp h1) hh (get_extend hp h2) ht ih

theorem Reads.mono {M M' T T' : ℕ} (hM : M ≤ M') (hT : T' ≤ T) {pkt : Bytes} {off j : ℕ}
    {ls : List Bytes} {text : Bytes} (h : Reads M T pkt off j ls text) :
    Reads M' T' pkt off j ls text := by
  induction h with
  | root h => exact .root h
  | label len next h hpos hle hnp hnext rest ih =>
    exact .label len next h hpos (by omega) hnp hnext ih
  | pointer hi lo h1 hh h2 ht rest ih => exact .pointer hi lo h1 hh h2 (by omega) ih

theorem Reads.expands {M T : ℕ} (hM : M ≤ 63) {pkt : Bytes} {off j : ℕ} {ls : List Bytes}
    {text : Bytes} (h : Reads M T pkt off j ls text) : Expands pkt off ls := by
  induction h with
  | root h => exact .root h
  | label len next h hpos hle hnp hnext rest ih =>
    have := get_lt hnext
    exact .label len h hpos (by omega) (by omega) ih
  | pointer hi lo h1 hh h2 ht rest ih => exact .pointer hi lo h1 hh h2 ih

/-- Pointer following is a partial function of the packet and the position. -/
theorem Reads.unique {M T : ℕ} {pkt : Bytes} {off j j' : ℕ} {ls ls' : List Bytes}
    {text text' : Bytes} (h : Reads M T pkt off j ls text)
    (h' : Reads M T pkt off j' ls' text') : j = j' ∧ ls = ls' ∧ text = text' := by
  induction h generalizing j' ls' text' with
  | root h =>
    cases h' with
    | root => exact ⟨rfl, rfl, rfl⟩
    | label len next g hpos =>
      obtain rfl : 0 = len := get_inj h g
      simp at hpos
    | pointer hi lo g hh =>
      obtain rfl : 0 = hi := get_inj h g
      simp at hh
  | label len next h hpos hle hnp hnext rest ih =>
    cases h' with
    | root g =>
      obtain rfl : len = 0 := get_inj h g
      simp at hpos
    | label len' next' g _ _ _ gnext rest' =>
      obtain rfl : len = len' := get_inj h g
      obtain rfl : next = next' := get_inj hnext gnext
      obtain ⟨rfl, rfl, rfl⟩ := ih rest'
      exact ⟨rfl, rfl, rfl⟩
    | pointer hi lo g hh =>
      obtain rfl : len = hi := get_inj h g
      omega
  | pointer hi lo h1 hh h2 ht rest ih =>
    cases h' with
    | root g =>
      obtain rfl : hi = 0 := get_inj h1 g
      simp at hh
    | label len next g _ _ hnp =>
      obtain rfl : hi = len := get_inj h1 g
      omega
    | pointer hi' lo' g1 _ g2 _ rest' =>
      obtain rfl : hi = hi' := get_inj h1 g1
      obtain rfl : lo = lo' := get_inj h2 g2
      obtain ⟨rfl, rfl, rfl⟩ := ih rest'
      exact ⟨rfl, rfl, rfl⟩

def skipName (pkt : Bytes) : ℕ → ℕ → Option ℕ
  | 0, _ => none
  | k+1, off => match pkt[off]? with
    | none => none
    | some c =>
      if c = 0 then some (off+1)
      else if 192 ≤ c.toNat then (if off+2 ≤ pkt.length then some (off+2) else none)
      else skipName pkt k (off+1+c.toNat)

def nameEnd (pkt : Bytes) (off : ℕ) : Option ℕ := skipName pkt (pkt.length+1) off

theorem skipName_bounds (pkt : Bytes) (k off e : ℕ) (h : skipName pkt k off = some e) :
    off < e ∧ e ≤ pkt.length := by
  induction k generalizing off with
  | zero => simp [skipName] at h
  | succ k ih =>
    rw [skipName] at h
    cases hc : pkt[off]? with
    | none => simp [hc] at h
    | some c =>
      have hlt := get_lt hc
      simp only [hc] at h
      split_ifs at h with h0 h1 h2
      · simp only [Option.some.injEq] at h
        omega
      · simp only [Option.some.injEq] at h
        omega
      · have := ih _ h
        omega

theorem skipName_mono (pkt : Bytes) (k m off e : ℕ) (hk : k ≤ m)
    (h : skipName pkt k off = some e) : skipName pkt m off = some e := by
  induction k generalizing m off with
  | zero => simp [skipName] at h
  | succ k ih =>
    obtain ⟨m, rfl⟩ : ∃ m', m = m'+1 := ⟨m-1, by omega⟩
    rw [skipName] at h ⊢
    cases hc : pkt[off]? with
    | none => simp [hc] at h
    | some c =>
      simp only [hc] at h ⊢
      split_ifs at h ⊢ with h0 h1 h2
      · exact h
      · exact h
      · exact ih m _ (by omega) h

theorem skipName_unique (pkt : Bytes) (k m off e e' : ℕ) (h : skipName pkt k off = some e)
    (h' : skipName pkt m off = some e') : e = e' := by
  have h1 := skipName_mono pkt k (max k m) off e (le_max_left _ _) h
  have h2 := skipName_mono pkt m (max k m) off e' (le_max_right _ _) h'
  exact Option.some.inj (h1.symm.trans h2)

theorem skipName_extend {a b : Bytes} (hp : a <+: b) (k off e : ℕ)
    (h : skipName a k off = some e) : skipName b k off = some e := by
  induction k generalizing off with
  | zero => simp [skipName] at h
  | succ k ih =>
    rw [skipName] at h ⊢
    cases hc : a[off]? with
    | none => simp [hc] at h
    | some c =>
      rw [get_extend hp hc]
      simp only [hc] at h ⊢
      have hl := hp.length_le
      split_ifs at h ⊢ with h0 h1 h2 h3
      · exact h
      · exact h
      · omega
      · exact ih _ h

theorem nameEnd_bounds {pkt : Bytes} {off e : ℕ} (h : nameEnd pkt off = some e) :
    off < e ∧ e ≤ pkt.length :=
  skipName_bounds pkt _ off e h

theorem nameEnd_extend {a b : Bytes} (hp : a <+: b) {off e : ℕ} (h : nameEnd a off = some e) :
    nameEnd b off = some e := by
  have hl := hp.length_le
  exact skipName_mono b _ _ off e (by omega) (skipName_extend hp _ off e h)

theorem Reads.skips {M T : ℕ} {pkt : Bytes} {off j : ℕ} {ls : List Bytes} {text : Bytes}
    (h : Reads M T pkt off j ls text) (k : ℕ) (hk : pkt.length < off+k) :
    ∃ e, skipName pkt k off = some e := by
  induction h generalizing k with
  | @root off h =>
    have := get_lt h
    obtain ⟨k, rfl⟩ : ∃ k', k = k'+1 := ⟨k-1, by omega⟩
    exact ⟨off+1, by simp [skipName, h]⟩
  | @label off j ls text len next h hpos hle hnp hnext rest ih =>
    have := get_lt h
    obtain ⟨k, rfl⟩ : ∃ k', k = k'+1 := ⟨k-1, by omega⟩
    obtain ⟨e, he⟩ := ih k (by omega)
    have h0 : len ≠ 0 := by rintro rfl; simp at hpos
    exact ⟨e, by simp [skipName, h, h0, he, show ¬ 192 ≤ len.toNat by omega]⟩
  | @pointer off j ls text hi lo h1 hh h2 ht rest ih =>
    have := get_lt h2
    obtain ⟨k, rfl⟩ : ∃ k', k = k'+1 := ⟨k-1, by omega⟩
    have h0 : hi ≠ 0 := by rintro rfl; simp at hh
    exact ⟨off+2, by simp [skipName, h1, h0, hh, show off+2 ≤ pkt.length by omega]⟩

/-- A name that can be read also ends somewhere in place. -/
theorem Reads.ends {M T : ℕ} {pkt : Bytes} {off j : ℕ} {ls : List Bytes} {text : Bytes}
    (h : Reads M T pkt off j ls text) : ∃ e, nameEnd pkt off = some e :=
  h.skips (pkt.length+1) (by have := h.lt; omega)

theorem Reads.ends_of_skip {M T : ℕ} {pkt : Bytes} {off j k e : ℕ} {ls : List Bytes}
    {text : Bytes} (h : Reads M T pkt off j ls text) (hk : skipName pkt k off = some e) :
    nameEnd pkt off = some e := by
  obtain ⟨e', he⟩ := h.ends
  rw [skipName_unique pkt k _ off e e' hk he]
  exact he

end DnsPkt.WireName
