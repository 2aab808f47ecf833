import DnsPkt.NameCompression
import DnsPkt.NameDecoder

/-!
# The names that the decoder accepts

`decode_name` is total and stays in its packet and in its output for every
input. It accepts more than the names of RFC 1035: the length of a label is
only limited by the two bits that mark a pointer, and one pointer more than
`DNS_MAX_JMP` is followed. The text is that of the labels, but for a last
label with a pointer behind it: the byte that decides about the dot is then
not the zero byte the name ends with.
-/

set_option autoImplicit false

namespace DnsPkt.NameLanguage
open DnsPkt.Octets DnsPkt.WireName DnsPkt.Protocol DnsPkt.NameCompression DnsPkt.NameDecoder

/-- The decoder always returns. It reads no byte outside the packet and stores no more than
`nlen` bytes, and its offset moves over the bytes in place. -/
theorem decode_name_safe (pkt : Bytes) (off nlen : ℕ) :
    ∃ r, decodeName pkt off nlen = .ok r ∧ r.out.length ≤ nlen ∧
      (∀ n, r.result = .ok n → 1 ≤ n ∧ n ≤ nlen ∧ r.out[n-1]? = some 0 ∧
        nameEnd pkt off = some r.offset ∧ off < r.offset ∧ r.offset ≤ pkt.length) ∧
      ∀ ec, r.result = .error ec → off ≤ pkt.length → r.offset ≤ pkt.length := by
  obtain ⟨r, hr, -, hout, hle⟩ := decodeName_total pkt off nlen
  refine ⟨r, hr, hout, ?_, fun _ _ h => hle h⟩
  obtain ⟨result, e, out⟩ := r
  rintro n rfl
  obtain ⟨j, ls, text, -, -, hroom, rfl, rfl, he⟩ := (decodeName_ok_iff _ _ _ _ _ _).mp hr
  have hb := nameEnd_bounds he
  refine ⟨by omega, by omega, ?_, he, hb.1, hb.2⟩
  simp

/-- Labels of 1 to `M` bytes in the packet, ended by a zero byte, where at a label position a
pointer into the packet behind its header is followed. The pointers are counted. -/
inductive WireForm (M : ℕ) (pkt : Bytes) : ℕ → ℕ → List Bytes → Prop
  | root {off : ℕ} (h : pkt[off]? = some 0) : WireForm M pkt off 0 []
  | label {off j : ℕ} {ls : List Bytes} (len : UInt8) (h : pkt[off]? = some len)
      (hpos : 1 ≤ len.toNat) (hle : len.toNat ≤ M) (hin : off+1+len.toNat ≤ pkt.length)
      (rest : WireForm M pkt (off+1+len.toNat) j ls) :
      WireForm M pkt off j (slice pkt (off+1) len.toNat :: ls)
  | pointer {off j : ℕ} {ls : List Bytes} (hi lo : UInt8) (h1 : pkt[off]? = some hi)
      (hh : 192 ≤ hi.toNat) (h2 : pkt[off+1]? = some lo) (hlo : dnsHdrLen ≤ target hi lo)
      (hlt : target hi lo < pkt.length) (rest : WireForm M pkt (target hi lo) j ls) :
      WireForm M pkt off (j+1) ls

section WireForm

variable {M : ℕ} {pkt : Bytes} {off j : ℕ} {ls : List Bytes}

theorem WireForm.lt (h : WireForm M pkt off j ls) : off < pkt.length := by
  cases h with
  | root h => exact get_lt h
  | label len h => exact get_lt h
  | pointer hi lo h1 => exact get_lt h1

theorem wireForm_of_reads {text : Bytes} (h : Reads M dnsHdrLen pkt off j ls text) :
    WireForm M pkt off j ls := by
  induction h with
  | root h => exact .root h
  | label len next h hpos hle hnp hnext rest ih =>
    exact .label len h hpos hle (get_lt hnext).le ih
  | pointer hi lo h1 hh h2 ht rest ih => exact .pointer hi lo h1 hh h2 ht rest.lt ih

theorem WireForm.reads (hM : M < 192) (h : WireForm M pkt off j ls) :
    ∃ text, Reads M dnsHdrLen pkt off j ls text := by
  induction h with
  | root h => exact ⟨_, .root h⟩
  | @label off j ls len h hpos hle hin rest ih =>
    obtain ⟨text, ht⟩ := ih
    obtain ⟨next, hnext⟩ : ∃ c, pkt[off+1+len.toNat]? = some c :=
      ⟨_, List.getElem?_eq_getElem rest.lt⟩
    exact ⟨_, .label len next h hpos hle (by omega) hnext ht⟩
  | pointer hi lo h1 hh h2 hlo hlt rest ih =>
    obtain ⟨text, ht⟩ := ih
    exact ⟨_, .pointer hi lo h1 hh h2 hlo ht⟩

theorem WireForm.unique (hM : M < 192) {j' : ℕ} {ls' : List Bytes} (h : WireForm M pkt off j ls)
    (h' : WireForm M pkt off j' ls') : j = j' ∧ ls = ls' := by
  obtain ⟨text, ht⟩ := h.reads hM
  obtain ⟨text', ht'⟩ := h'.reads hM
  obtain ⟨hj, hls, -⟩ := ht.unique ht'
  exact ⟨hj, hls⟩

theorem WireForm.mono {M' : ℕ} (hM : M ≤ M') (h : WireForm M pkt off j ls) :
    WireForm M' pkt off j ls := by
  induction h with
  | root h => exact .root h
  | label len h hpos hle hin rest ih => exact .label len h hpos (by omega) hin ih
  | pointer hi lo h1 hh h2 hlo hlt rest ih => exact .pointer hi lo h1 hh h2 hlo hlt ih

/-- A shorter limit is met when every label meets it. -/
theorem WireForm.shorter {M' : ℕ} (h : WireForm M pkt off j ls) (hls : ∀ l ∈ ls, l.length ≤ M') :
    WireForm M' pkt off j ls := by
  induction h with
  | root h => exact .root h
  | label len h hpos hle hin rest ih =>
    have hl := hls _ List.mem_cons_self
    rw [length_slice _ _ _ hin] at hl
    exact .label len h hpos hl hin (ih fun l hl => hls l (List.mem_cons_of_mem _ hl))
  | pointer hi lo h1 hh h2 hlo hlt rest ih => exact .pointer hi lo h1 hh h2 hlo hlt (ih hls)

theorem WireForm.length_le (h : WireForm M pkt off j ls) : ∀ l ∈ ls, l.length ≤ M := by
  induction h with
  | root h => simp
  | label len h hpos hle hin rest ih =>
    intro l hl
    rcases List.mem_cons.mp hl with rfl | hl
    · rw [length_slice _ _ _ hin]
      exact hle
    · exact ih l hl
  | pointer hi lo h1 hh h2 hlo hlt rest ih => exact ih

end WireForm

def Accepts (pkt : Bytes) (off nlen : ℕ) : Prop :=
  ∃ n e out, decodeName pkt off nlen = .ok ⟨.ok n, e, out⟩

theorem accepts_of_reads {pkt : Bytes} {off j nlen : ℕ} {ls : List Bytes} {text : Bytes}
    (h : Reads 191 12 pkt off j ls text) (hj : j ≤ dnsMaxJmp+1) (hroom : text.length < nlen) :
    Accepts pkt off nlen := by
  obtain ⟨e, he⟩ := h.ends
  exact ⟨_, e, _, (decodeName_ok_iff _ _ _ _ _ _).mpr ⟨j, ls, text, h, hj, hroom, rfl, rfl, he⟩⟩

theorem Accepts.form {pkt : Bytes} {off nlen : ℕ} (h : Accepts pkt off nlen) :
    ∃ j ls, WireForm 191 pkt off j ls ∧ j ≤ dnsMaxJmp+1 := by
  obtain ⟨n, e, out, h⟩ := h
  obtain ⟨j, ls, text, hr, hj, -⟩ := (decodeName_ok_iff _ _ _ _ _ _).mp h
  exact ⟨j, ls, wireForm_of_reads hr, hj⟩

/-- A name within the limits that are declared. -/
def Declared (pkt : Bytes) (off : ℕ) : Prop :=
  ∃ j ls, WireForm dnsLabelMaxstr pkt off j ls ∧ j ≤ dnsMaxJmp

/-- A name that only the decoder takes for one: some label has 64 to 191 bytes, or one pointer
more than `DNS_MAX_JMP` is followed. -/
def Oversized (pkt : Bytes) (off : ℕ) : Prop :=
  ∃ j ls, WireForm 191 pkt off j ls ∧ j ≤ dnsMaxJmp+1 ∧
    (j = dnsMaxJmp+1 ∨ ∃ l ∈ ls, dnsLabelMaxstr < l.length)

theorem Declared.accepts {pkt : Bytes} {off : ℕ} (h : Declared pkt off) :
    ∃ N, ∀ nlen, N ≤ nlen → Accepts pkt off nlen := by
  obtain ⟨j, ls, hf, hj⟩ := h
  obtain ⟨text, ht⟩ := (hf.mono (show dnsLabelMaxstr ≤ 191 by decide)).reads (by decide)
  exact ⟨text.length+1, fun nlen hn => accepts_of_reads ht (by omega) hn⟩

theorem Oversized.accepts {pkt : Bytes} {off : ℕ} (h : Oversized pkt off) (N : ℕ) :
    ∃ nlen, N ≤ nlen ∧ Accepts pkt off nlen := by
  obtain ⟨j, ls, hf, hj, -⟩ := h
  obtain ⟨text, ht⟩ := hf.reads (by decide)
  exact ⟨max N (text.length+1), le_max_left _ _,
    accepts_of_reads ht hj (lt_of_lt_of_le (Nat.lt_succ_self _) (le_max_right _ _))⟩

theorem Oversized.not_declared {pkt : Bytes} {off : ℕ} (h : Oversized pkt off) :
    ¬ Declared pkt off := by
  rintro ⟨j', ls', hf', hj'⟩
  obtain ⟨j, ls, hf, hj, hbig⟩ := h
  have hwide := hf'.mono (show dnsLabelMaxstr ≤ 191 by decide)
  obtain ⟨rfl, rfl⟩ := hf.unique (by decide) hwide
  rcases hbig with rfl | ⟨l, hl, hlong⟩
  · omega
  · have := hf'.length_le l hl
    omega

/-- With enough room the decoder accepts the names within the declared limits and no others,
exactly when the bytes do not form a name beyond these limits. -/
theorem accepted_names_iff (pkt : Bytes) (off : ℕ) :
    (∃ N, ∀ nlen, N ≤ nlen → (Accepts pkt off nlen ↔ Declared pkt off)) ↔
      ¬ Oversized pkt off := by
  constructor
  · rintro ⟨N, hN⟩ hbig
    obtain ⟨nlen, hn, hacc⟩ := hbig.accepts N
    exact hbig.not_declared ((hN nlen hn).mp hacc)
  · intro hsmall
    by_cases hd : Declared pkt off
    · obtain ⟨N, hN⟩ := hd.accepts
      exact ⟨N, fun nlen hn => iff_of_true (hN nlen hn) hd⟩
    · refine ⟨0, fun nlen _ => iff_of_false (fun hacc => ?_) hd⟩
      obtain ⟨j, ls, hf, hj⟩ := hacc.form
      by_cases hlast : j = dnsMaxJmp+1
      · exact hsmall ⟨j, ls, hf, hj, .inl hlast⟩
      by_cases hlong : ∃ l ∈ ls, dnsLabelMaxstr < l.length
      · exact hsmall ⟨j, ls, hf, hj, .inr hlong⟩
      push Not at hlong
      exact hd ⟨j, ls, hf.shorter hlong, by omega⟩

def longLabelPkt : Bytes := List.replicate 12 0 ++ 64 :: List.replicate 64 97 ++ [0]

theorem long_label_accepted : ¬ ∀ (pkt : Bytes) (off : ℕ),
    ∃ N, ∀ nlen, N ≤ nlen → (Accepts pkt off nlen ↔ Declared pkt off) := by
  intro hall
  have hform : WireForm 191 longLabelPkt 12 0 [slice longLabelPkt 13 64] :=
    .label 64 (by decide) (by decide) (by decide) (by decide) (.root (by decide))
  have hbig : Oversized longLabelPkt 12 :=
    ⟨0, _, hform, by decide, .inr ⟨_, List.mem_cons_self, by decide⟩⟩
  obtain ⟨N, hN⟩ := hall longLabelPkt 12
  obtain ⟨nlen, hn, hacc⟩ := hbig.accepts N
  exact hbig.not_declared ((hN nlen hn).mp hacc)

/-- Nothing but pointers stands between the last label and the zero byte, and at least one. -/
inductive TrailingPointer (pkt : Bytes) : ℕ → Prop
  | last {off j : ℕ} (len : UInt8) (h : pkt[off]? = some len) (hpos : 1 ≤ len.toNat)
      (hle : len.toNat ≤ 191) (rest : WireForm 191 pkt (off+1+len.toNat) (j+1) []) :
      TrailingPointer pkt off
  | label {off : ℕ} (len : UInt8) (h : pkt[off]? = some len) (hpos : 1 ≤ len.toNat)
      (hle : len.toNat ≤ 191) (rest : TrailingPointer pkt (off+1+len.toNat)) :
      TrailingPointer pkt off
  | pointer {off : ℕ} (hi lo : UInt8) (h1 : pkt[off]? = some hi) (hh : 192 ≤ hi.toNat)
      (h2 : pkt[off+1]? = some lo) (rest : TrailingPointer pkt (target hi lo)) :
      TrailingPointer pkt off

section Text

variable {pkt : Bytes} {off j : ℕ} {ls : List Bytes} {text : Bytes}

theorem trailing_label {len : UInt8} (h : pkt[off]? = some len) (hpos : 1 ≤ len.toNat)
    (hle : len.toNat ≤ 191) (hform : WireForm 191 pkt (off+1+len.toNat) j ls) :
    TrailingPointer pkt off ↔
      (ls = [] ∧ j ≠ 0) ∨ TrailingPointer pkt (off+1+len.toNat) := by
  constructor
  · intro ht
    cases ht with
    | last len' h' hpos' hle' rest =>
      obtain rfl : len = len' := get_inj h h'
      obtain ⟨rfl, rfl⟩ := hform.unique (by decide) rest
      exact .inl ⟨rfl, Nat.succ_ne_zero _⟩
    | label len' h' hpos' hle' rest =>
      obtain rfl : len = len' := get_inj h h'
      exact .inr rest
    | pointer hi lo h1 hh =>
      obtain rfl : len = hi := get_inj h h1
      omega
  · rintro (⟨rfl, hj⟩ | ht)
    · obtain ⟨k, rfl⟩ := Nat.exists_eq_succ_of_ne_zero hj
      exact .last len h hpos hle hform
    · exact .label len h hpos hle ht

theorem trailing_pointer {hi lo : UInt8} (h1 : pkt[off]? = some hi) (hh : 192 ≤ hi.toNat)
    (h2 : pkt[off+1]? = some lo) :
    TrailingPointer pkt off ↔ TrailingPointer pkt (target hi lo) := by
  refine ⟨fun ht => ?_, fun ht => .pointer hi lo h1 hh h2 ht⟩
  cases ht with
  | last len h _ hle =>
    obtain rfl : hi = len := get_inj h1 h
    omega
  | label len h _ hle =>
    obtain rfl : hi = len := get_inj h1 h
    omega
  | pointer hi' lo' h1' _ h2' rest =>
    obtain rfl : hi = hi' := get_inj h1 h1'
    obtain rfl : lo = lo' := get_inj h2 h2'
    exact rest

theorem not_trailing_root (h : pkt[off]? = some 0) : ¬ TrailingPointer pkt off := by
  intro ht
  cases ht with
  | last len g hpos =>
    obtain rfl : 0 = len := get_inj h g
    simp at hpos
  | label len g hpos =>
    obtain rfl : 0 = len := get_inj h g
    simp at hpos
  | pointer hi lo g hh =>
    obtain rfl : 0 = hi := get_inj h g
    simp at hh

/-- A name of pointers only. -/
theorem reads_no_labels (h : Reads 191 12 pkt off j [] text) :
    text = [] ∧ ¬ TrailingPointer pkt off ∧ ∀ c, pkt[off]? = some c → (c = 0 ↔ j = 0) := by
  generalize hls : ([] : List Bytes) = ls at h
  induction h with
  | root h =>
    refine ⟨rfl, not_trailing_root h, fun c hc => ?_⟩
    simp [get_inj hc h]
  | label => cases hls
  | pointer hi lo h1 hh h2 ht rest ih =>
    obtain ⟨rfl, hno, -⟩ := ih hls
    refine ⟨rfl, (trailing_pointer h1 hh h2).not.mpr hno, fun c hc => ?_⟩
    obtain rfl := get_inj hc h1
    refine iff_of_false ?_ (Nat.succ_ne_zero _)
    rintro rfl
    simp at hh

/-- The text is that of the labels, with a dot behind it if a pointer follows the last one. -/
theorem reads_text (h : Reads 191 12 pkt off j ls text) :
    (¬ TrailingPointer pkt off ∧ text = dotted ls) ∨
      (TrailingPointer pkt off ∧ text = dotted ls ++ [46]) := by
  induction h with
  | root h => exact .inl ⟨not_trailing_root h, rfl⟩
  | @label off j ls text len next h hpos hle hnp hnext rest ih =>
    have hiff := trailing_label h hpos hle (wireForm_of_reads rest)
    cases ls with
    | nil =>
      obtain ⟨rfl, hno, hzero⟩ := reads_no_labels rest
      have hz := hzero next hnext
      by_cases hj : j = 0
      · refine .inl ⟨by simp [hiff, hj, hno], ?_⟩
        rw [separator, if_pos (hz.mpr hj)]
        simp [dotted]
      · refine .inr ⟨by simp [hiff, hj], ?_⟩
        rw [separator, if_neg (mt hz.mp hj)]
        simp [dotted]
    | cons m rest' =>
      have hnz : next ≠ 0 := reads_nonzero rest (by simp) hnext
      have hsame : TrailingPointer pkt off ↔ TrailingPointer pkt (off+1+len.toNat) := by
        simp [hiff]
      rw [separator, if_neg hnz, hsame]
      rcases ih with ⟨hno, rfl⟩ | ⟨hyes, rfl⟩
      · exact .inl ⟨hno, rfl⟩
      · exact .inr ⟨hyes, by simp [dotted]⟩
  | pointer hi lo h1 hh h2 ht rest ih =>
    rw [trailing_pointer h1 hh h2]
    exact ih

end Text

/-- What a decoded name shows of the labels that were visited. -/
theorem decoded_text {pkt : Bytes} {off nlen n e j : ℕ} {out : Bytes} {ls : List Bytes}
    (h : decodeName pkt off nlen = .ok ⟨.ok n, e, out⟩) (hform : WireForm 191 pkt off j ls) :
    (¬ TrailingPointer pkt off ∧ out = dotted ls ++ [0] ∧ n = (dotted ls).length+1) ∨
      (TrailingPointer pkt off ∧ out = dotted ls ++ [46] ++ [0] ∧ n = (dotted ls).length+2) := by
  obtain ⟨j', ls', text, hr, -, -, rfl, rfl, -⟩ := (decodeName_ok_iff _ _ _ _ _ _).mp h
  obtain ⟨rfl, rfl⟩ := hform.unique (by decide) (wireForm_of_reads hr)
  rcases reads_text hr with ⟨ht, rfl⟩ | ⟨ht, rfl⟩
  · exact .inl ⟨ht, rfl, rfl⟩
  · exact .inr ⟨ht, rfl, by simp⟩

/-- The text is the labels joined by dots exactly when no pointer stands behind the last
label. Two encodings of the same labels then give the same text. -/
theorem decoded_text_iff {pkt : Bytes} {off nlen n e : ℕ} {out : Bytes}
    (h : decodeName pkt off nlen = .ok ⟨.ok n, e, out⟩) :
    ∃ j ls, WireForm 191 pkt off j ls ∧
      ((out = dotted ls ++ [0] ∧ n = (dotted ls).length+1) ↔ ¬ TrailingPointer pkt off) ∧
      ∀ (pkt' : Bytes) (off' nlen' n' e' j' : ℕ) (out' : Bytes),
        decodeName pkt' off' nlen' = .ok ⟨.ok n', e', out'⟩ → WireForm 191 pkt' off' j' ls →
        ((out' = out ∧ n' = n) ↔ (TrailingPointer pkt' off' ↔ TrailingPointer pkt off)) := by
  have hacc : Accepts pkt off nlen := ⟨n, e, out, h⟩
  obtain ⟨j, ls, hform, -⟩ := hacc.form
  refine ⟨j, ls, hform, ?_, ?_⟩
  · rcases decoded_text h hform with ⟨ht, hout, hn⟩ | ⟨ht, hout, hn⟩
    · exact iff_of_true ⟨hout, hn⟩ ht
    · exact iff_of_false (by omega) (not_not_intro ht)
  · intro pkt' off' nlen' n' e' j' out' h' hform'
    rcases decoded_text h hform with ⟨ht, rfl, rfl⟩ | ⟨ht, rfl, rfl⟩ <;>
      rcases decoded_text h' hform' with ⟨ht', rfl, rfl⟩ | ⟨ht', rfl, rfl⟩
    · exact iff_of_true ⟨rfl, rfl⟩ (iff_of_false ht' ht)
    · exact iff_of_false (by omega) fun hiff => ht (hiff.mp ht')
    · exact iff_of_false (by omega) fun hiff => ht' (hiff.mpr ht)
    · exact iff_of_true ⟨rfl, rfl⟩ (iff_of_true ht' ht)

/-- A header, the names `a` and `b.a`, the second one with a pointer to the first, and `b.a`
once more in place. -/
def pointedPkt : Bytes := List.replicate 12 0 ++ [1, 97, 0, 1, 98, 0xC0, 12, 1, 98, 1, 97, 0]

theorem pointed_text : ∃ j ls, WireForm 191 pointedPkt 15 j ls ∧
    (([98, 46, 97, 0] = dotted ls ++ [0] ∧ 4 = (dotted ls).length+1) ↔
      ¬ TrailingPointer pointedPkt 15) ∧
    ∀ j', WireForm 191 pointedPkt 19 j' ls →
      (TrailingPointer pointedPkt 19 ↔ TrailingPointer pointedPkt 15) := by
  have h : decodeName pointedPkt 15 255 = .ok ⟨.ok 4, 19, [98, 46, 97, 0]⟩ := by rfl
  have h' : decodeName pointedPkt 19 255 = .ok ⟨.ok 4, 24, [98, 46, 97, 0]⟩ := by rfl
  obtain ⟨j, ls, hform, htext, hsame⟩ := decoded_text_iff h
  exact ⟨j, ls, hform, htext, fun j' hform' => (hsame _ _ _ _ _ _ _ h' hform').mp ⟨rfl, rfl⟩⟩

/-- A header, the name `a` in place, and once more with a pointer to its zero byte. -/
def trailingPkt : Bytes := List.replicate 12 0 ++ [1, 97, 0, 1, 97, 0xC0, 14]

theorem trailing_pointer_text :
    decodeName trailingPkt 12 255 = .ok ⟨.ok 2, 15, [97, 0]⟩ ∧
    decodeName trailingPkt 15 255 = .ok ⟨.ok 3, 19, [97, 46, 0]⟩ ∧
    WireForm 191 trailingPkt 12 0 [[97]] ∧ WireForm 191 trailingPkt 15 1 [[97]] ∧
    [97, 46, 0] ≠ dotted [[97]] ++ [0] := by
  refine ⟨by rfl, by rfl, ?_, ?_, by decide⟩
  · exact .label 1 (by decide) (by decide) (by decide) (by decide) (.root (by decide))
  · exact .label 1 (by decide) (by decide) (by decide) (by decide)
      (.pointer 0xC0 14 (by decide) (by decide) (by decide) (by decide) (by decide)
        (.root (by decide)))

end DnsPkt.NameLanguage
