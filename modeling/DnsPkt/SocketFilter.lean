import DnsPkt.CbpfMachine
import DnsPkt.RedirectFilter

/-!
# The filter of the sockets

`dns_filter` in `dns_insp.c` is the classic program for capture by AF_PACKET.
It keeps the frames of the same kind as the filter of the express path, but
the two differ in what they ask of a frame: this one refuses fragments that
are not the first, the other one headers that are not whole.
-/

set_option autoImplicit false

namespace DnsPkt.SocketFilter
open DnsPkt.Octets DnsPkt.StepMachine DnsPkt.CbpfMachine DnsPkt.Inspector

def dnsFilter : List SockFilter :=
  [⟨0x28, 0, 0, 0x0000000c⟩,
    ⟨0x15, 0, 6, 0x000086dd⟩,
    ⟨0x30, 0, 0, 0x00000014⟩,
    ⟨0x15, 0, 15, 0x00000011⟩,
    ⟨0x28, 0, 0, 0x00000036⟩,
    ⟨0x15, 12, 0, 0x00000035⟩,
    ⟨0x28, 0, 0, 0x00000038⟩,
    ⟨0x15, 10, 11, 0x00000035⟩,
    ⟨0x15, 0, 10, 0x00000800⟩,
    ⟨0x30, 0, 0, 0x00000017⟩,
    ⟨0x15, 0, 8, 0x00000011⟩,
    ⟨0x28, 0, 0, 0x00000014⟩,
    ⟨0x45, 6, 0, 0x00001fff⟩,
    ⟨0xb1, 0, 0, 0x0000000e⟩,
    ⟨0x48, 0, 0, 0x0000000e⟩,
    ⟨0x15, 2, 0, 0x00000035⟩,
    ⟨0x48, 0, 0, 0x00000010⟩,
    ⟨0x15, 0, 1, 0x00000035⟩,
    ⟨0x6, 0, 0, 0x00040000⟩,
    ⟨0x6, 0, 0, 0x00000000⟩]

def listing : List Insn :=
  [.ldAbs 2 12, .jeq 0x86dd 0 6, .ldAbs 1 20, .jeq 17 0 15, .ldAbs 2 54, .jeq 53 12 0,
    .ldAbs 2 56, .jeq 53 10 11, .jeq 0x0800 0 10, .ldAbs 1 23, .jeq 17 0 8, .ldAbs 2 20,
    .jset 0x1fff 6 0, .ldxMsh 14, .ldInd 2 14, .jeq 53 2 0, .ldInd 2 16, .jeq 53 0 1,
    .ret 0x40000, .ret 0]

theorem fetch_listing : ∀ pc < 20, dnsFilter[pc]?.bind decode = listing[pc]? := by decide

/-! The bytes of a frame in network order. Those behind its end count as zero,
so a field that holds something else is inside. -/

theorem bigEndian_byte (f : Bytes) {i : ℕ} (h : i+1 ≤ f.length) :
    bigEndian (slice f i 1) = byteAt f i := by
  rw [slice, List.drop_eq_getElem_cons h, List.take_succ_cons, byteAt,
    List.getD_eq_getElem?_getD, List.getElem?_eq_getElem h]
  simp [bigEndian]

theorem bigEndian_word (f : Bytes) {i : ℕ} (h : i+2 ≤ f.length) :
    bigEndian (slice f i 2) = wordAt f i := by
  have hnext : i+1 < f.length := by omega
  rw [slice, List.drop_eq_getElem_cons (show i < f.length by omega), List.take_succ_cons,
    List.drop_eq_getElem_cons hnext, List.take_succ_cons, wordAt, byteAt, byteAt,
    List.getD_eq_getElem?_getD, List.getD_eq_getElem?_getD,
    List.getElem?_eq_getElem (show i < f.length by omega), List.getElem?_eq_getElem hnext]
  simp [bigEndian]

theorem inside_of_byteAt {f : Bytes} {i : ℕ} (h : byteAt f i ≠ 0) : i < f.length := by
  by_contra hout
  rw [byteAt, List.getD_eq_getElem?_getD, List.getElem?_eq_none (by omega)] at h
  exact h rfl

theorem inside_of_port {f : Bytes} {i : ℕ} (h : wordAt f i = 53) : i+2 ≤ f.length := by
  have h1 := RedirectFilter.byteAt_lt f (i+1)
  rw [wordAt] at h
  have hin : i+1 < f.length := inside_of_byteAt (by omega)
  omega

def HasPort (f : Bytes) (p : ℕ) : Prop := wordAt f p = 53 ∨ wordAt f (p+2) = 53

instance (f : Bytes) (p : ℕ) : Decidable (HasPort f p) := inferInstanceAs (Decidable (_ ∨ _))

def udpStart4 (f : Bytes) : ℕ := 14+byteAt f 14 % 16*4

def LooksV4 (f : Bytes) : Prop :=
  wordAt f 12 = ethPIp ∧ byteAt f 23 = ipprotoUdp ∧ HasPort f (udpStart4 f)

def LooksV6 (f : Bytes) : Prop :=
  wordAt f 12 = ethPIpv6 ∧ byteAt f 20 = ipprotoUdp ∧ HasPort f 54

instance (f : Bytes) : Decidable (LooksV4 f) := inferInstanceAs (Decidable (_ ∧ _ ∧ _))

instance (f : Bytes) : Decidable (LooksV6 f) := inferInstanceAs (Decidable (_ ∧ _ ∧ _))

def fragOffset (f : Bytes) : ℕ := wordAt f 20 % 2^13

def accepts (f : Bytes) : Bool := LooksV6 f ∨ LooksV4 f ∧ fragOffset f = 0

theorem LooksV4.inside {f : Bytes} (h : LooksV4 f) : 23 < f.length :=
  inside_of_byteAt (by rw [h.2.1]; decide)

theorem LooksV6.inside {f : Bytes} (h : LooksV6 f) : 20 < f.length :=
  inside_of_byteAt (by rw [h.2.1]; decide)

section Program

variable (f : Bytes)

def kept : Result := .keep (if accepts f then 0x40000 else 0)

abbrev EndsIn : ℕ → State → Result → Prop := Ends (step dnsFilter f) .stuck

variable {f}

theorem kept_all (h : LooksV6 f ∨ LooksV4 f ∧ fragOffset f = 0) : kept f = .keep 0x40000 := by
  rw [kept, if_pos]
  exact decide_eq_true h

theorem kept_none (h6 : ¬ LooksV6 f) (h4 : LooksV4 f → fragOffset f ≠ 0) : kept f = .keep 0 := by
  rw [kept, if_neg]
  simp only [accepts, decide_eq_true_eq]
  exact fun h => h.elim h6 fun h => h4 h.1 h.2

theorem keep_ends {a x : ℕ} (h : kept f = .keep 0x40000) : EndsIn f 1 ⟨18, a, x⟩ (kept f) :=
  h ▸ ends_ret ⟨18, a, x⟩ (fetch_listing 18 (by decide))

theorem refuse_ends {a x : ℕ} (h : kept f = .keep 0) : EndsIn f 1 ⟨19, a, x⟩ (kept f) :=
  h ▸ ends_ret ⟨19, a, x⟩ (fetch_listing 19 (by decide))

theorem v6_end {a x : ℕ} (htype : wordAt f 12 = ethPIpv6) : EndsIn f 7 ⟨2, a, x⟩ (kept f) := by
  have h4 (h : LooksV4 f) : fragOffset f ≠ 0 := absurd (htype.symm.trans h.1) (by decide)
  apply ends_ldAbs ⟨2, a, x⟩ (fetch_listing 2 (by decide))
  · intro hshort
    exact kept_none (fun h => absurd h.inside (by omega)) h4
  intro hin
  rw [bigEndian_byte f hin]
  apply ends_jeq ⟨3, _, _⟩ (fetch_listing 3 (by decide))
  · intro hproto
    apply ends_ldAbs ⟨4, _, _⟩ (fetch_listing 4 (by decide))
    · intro hshort
      apply kept_none ?_ h4
      rintro ⟨-, -, hport | hport⟩
      · exact absurd (inside_of_port hport) (by omega)
      · exact absurd (inside_of_port hport) (by omega)
    intro hsrcIn
    rw [bigEndian_word f hsrcIn]
    apply ends_jeq ⟨5, _, _⟩ (fetch_listing 5 (by decide))
    · intro hsrc
      exact (keep_ends (kept_all (.inl ⟨htype, hproto, .inl hsrc⟩))).more (by decide)
    intro hsrc
    apply ends_ldAbs ⟨6, _, _⟩ (fetch_listing 6 (by decide))
    · intro hshort
      apply kept_none ?_ h4
      rintro ⟨-, -, hport | hport⟩
      · exact hsrc hport
      · exact absurd (inside_of_port hport) (by omega)
    intro hdstIn
    rw [bigEndian_word f hdstIn]
    apply ends_jeq ⟨7, _, _⟩ (fetch_listing 7 (by decide))
    · intro hdst
      exact keep_ends (kept_all (.inl ⟨htype, hproto, .inr hdst⟩))
    · intro hdst
      exact refuse_ends (kept_none (fun h => h.2.2.elim hsrc hdst) h4)
  · intro hproto
    exact (refuse_ends (kept_none (fun h => hproto h.2.1) h4)).more (by decide)

theorem v4_ports {a x : ℕ} (htype : wordAt f 12 = ethPIp) (hproto : byteAt f 23 = ipprotoUdp)
    (hfirst : fragOffset f = 0) (hx : x+14 = udpStart4 f) : EndsIn f 5 ⟨14, a, x⟩ (kept f) := by
  have h6 (h : LooksV6 f) : False := absurd (htype.symm.trans h.1) (by decide)
  have hx2 : x+16 = udpStart4 f+2 := by omega
  apply ends_ldInd ⟨14, a, x⟩ (fetch_listing 14 (by decide))
  · intro hshort
    change f.length < x+14+2 at hshort
    apply kept_none h6
    rintro ⟨-, -, hport | hport⟩
    · exact absurd (inside_of_port hport) (by omega)
    · exact absurd (inside_of_port hport) (by omega)
  intro hsrcIn
  rw [bigEndian_word f hsrcIn]
  apply ends_jeq ⟨15, wordAt f (x+14), x⟩ (fetch_listing 15 (by decide))
  · intro hsrc
    rw [hx] at hsrc
    exact (keep_ends (kept_all (.inr ⟨⟨htype, hproto, .inl hsrc⟩, hfirst⟩))).more (by decide)
  intro hsrc
  rw [hx] at hsrc
  apply ends_ldInd ⟨16, wordAt f (x+14), x⟩ (fetch_listing 16 (by decide))
  · intro hshort
    change f.length < x+16+2 at hshort
    apply kept_none h6
    rintro ⟨-, -, hport | hport⟩
    · exact absurd hport hsrc
    · exact absurd (inside_of_port hport) (by omega)
  intro hdstIn
  rw [bigEndian_word f hdstIn]
  apply ends_jeq ⟨17, wordAt f (x+16), x⟩ (fetch_listing 17 (by decide))
  · intro hdst
    rw [hx2] at hdst
    exact keep_ends (kept_all (.inr ⟨⟨htype, hproto, .inr hdst⟩, hfirst⟩))
  · intro hdst
    rw [hx2] at hdst
    exact refuse_ends (kept_none h6 fun h => (h.2.2.elim hsrc hdst).elim)

theorem v4_end {a x : ℕ} (htype : wordAt f 12 = ethPIp) : EndsIn f 10 ⟨9, a, x⟩ (kept f) := by
  have h6 (h : LooksV6 f) : False := absurd (htype.symm.trans h.1) (by decide)
  apply ends_ldAbs ⟨9, a, x⟩ (fetch_listing 9 (by decide))
  · intro hshort
    exact kept_none h6 fun h => absurd h.inside (by omega)
  intro hin
  rw [bigEndian_byte f hin]
  apply ends_jeq ⟨10, _, _⟩ (fetch_listing 10 (by decide))
  · intro hproto
    apply ends_ldAbs ⟨11, _, _⟩ (fetch_listing 11 (by decide))
    · intro hshort
      omega
    intro hfragIn
    rw [bigEndian_word f hfragIn]
    have hfrag : wordAt f 20 &&& 0x1fff = fragOffset f := Nat.and_two_pow_sub_one_eq_mod _ 13
    apply ends_jset ⟨12, _, _⟩ (fetch_listing 12 (by decide))
    · intro hset
      exact (refuse_ends (kept_none h6 fun _ => hfrag ▸ hset)).more (by decide)
    intro hset
    have hfirst : fragOffset f = 0 := hfrag ▸ not_not.mp hset
    apply ends_ldxMsh ⟨13, _, _⟩ (fetch_listing 13 (by decide))
    · intro hshort
      omega
    intro hihlIn
    have hx : 4*(bigEndian (slice f 14 1) &&& 0xf)+14 = udpStart4 f := by
      rw [bigEndian_byte f hihlIn, Nat.and_two_pow_sub_one_eq_mod _ 4, udpStart4]
      omega
    exact v4_ports htype hproto hfirst hx
  · intro hproto
    exact (refuse_ends (kept_none h6 fun h => absurd h.2.1 hproto)).more (by decide)

theorem filter_ends (f : Bytes) : EndsIn f 14 start (kept f) := by
  apply ends_ldAbs start (fetch_listing 0 (by decide))
  · intro hshort
    apply kept_none
    · exact fun h => absurd h.inside (by omega)
    · exact fun h => absurd h.inside (by omega)
  intro hin
  rw [bigEndian_word f hin]
  apply ends_jeq ⟨1, _, _⟩ (fetch_listing 1 (by decide))
  · intro htype
    exact (v6_end htype).more (by decide)
  intro htype6
  apply ends_jeq ⟨8, _, _⟩ (fetch_listing 8 (by decide))
  · intro htype
    exact (v4_end htype).more (by decide)
  · intro htype
    exact (refuse_ends (kept_none (fun h => htype6 h.1) fun h => absurd h.1 htype)).more (by decide)

end Program

theorem redirects_iff (f : Bytes) : RedirectFilter.redirects f = true ↔
    LooksV4 f ∧ 5 ≤ byteAt f 14 % 16 ∧ udpStart4 f+8 ≤ f.length ∨
      LooksV6 f ∧ 54+8 ≤ f.length := by
  rw [RedirectFilter.redirects, RedirectFilter.udpStart]
  by_cases hlen : f.length < 14
  · rw [if_pos hlen]
    refine iff_of_false (by simp) ?_
    rintro (⟨h, -⟩ | ⟨h, -⟩)
    · exact absurd h.inside (by omega)
    · exact absurd h.inside (by omega)
  rw [if_neg hlen]
  by_cases hip : wordAt f 12 = ethPIp
  · have h6 : ¬ LooksV6 f := fun h => absurd (hip.symm.trans h.1) (by decide)
    rw [if_pos hip]
    by_cases hhdr : 34 ≤ f.length ∧ 5 ≤ byteAt f 14 % 16 ∧ 14+byteAt f 14 % 16*4 ≤ f.length ∧
        byteAt f 23 = ipprotoUdp
    · rw [if_pos hhdr, Option.bind_some, udpEnd_isSome]
      simp only [LooksV4, HasPort, udpStart4, hip, hhdr, h6, true_and, false_and, or_false,
        and_comm]
    · rw [if_neg hhdr]
      refine iff_of_false (by simp) ?_
      rintro (⟨h, hihl, hfit⟩ | ⟨h, -⟩)
      · rw [udpStart4] at hfit
        exact hhdr ⟨by omega, hihl, by omega, h.2.1⟩
      · exact h6 h
  · have h4 : ¬ LooksV4 f := fun h => hip h.1
    rw [if_neg hip]
    by_cases hip6 : wordAt f 12 = ethPIpv6
    · rw [if_pos hip6]
      by_cases hhdr : 54 ≤ f.length ∧ byteAt f 20 = ipprotoUdp
      · rw [if_pos hhdr, Option.bind_some, udpEnd_isSome]
        simp only [LooksV6, HasPort, hip6, hhdr, h4, true_and, false_and, false_or, and_comm]
      · rw [if_neg hhdr]
        refine iff_of_false (by simp) ?_
        rintro (⟨h, -⟩ | ⟨h, hfit⟩)
        · exact h4 h
        · exact hhdr ⟨by omega, h.2.1⟩
    · rw [if_neg hip6]
      refine iff_of_false (by simp) ?_
      rintro (⟨h, -⟩ | ⟨h, -⟩)
      · exact h4 h
      · exact hip6 h.1

/-- A frame with DNS ports is a first fragment exactly if its headers are whole. -/
structure Clear (f : Bytes) : Prop where
  v4 : LooksV4 f →
    (fragOffset f = 0 ↔ 5 ≤ byteAt f 14 % 16 ∧ udpStart4 f+8 ≤ f.length)
  v6 : LooksV6 f → 54+8 ≤ f.length

theorem accepts_eq_redirects_iff (f : Bytes) :
    (accepts f = true ↔ RedirectFilter.redirects f = true) ↔ Clear f := by
  rw [redirects_iff, accepts, decide_eq_true_eq]
  by_cases h4 : LooksV4 f
  · have h6 : ¬ LooksV6 f := fun h => absurd (h4.1.symm.trans h.1) (by decide)
    simp only [h4, h6, true_and, false_and, false_or, or_false]
    exact ⟨fun h => ⟨fun _ => h, fun h => absurd h h6⟩, fun h => h.v4 h4⟩
  · by_cases h6 : LooksV6 f
    · simp only [h4, h6, true_and, false_and, false_or, or_false, true_iff]
      exact ⟨fun h => ⟨fun h => absurd h h4, fun _ => h⟩, fun h => h.v6 h6⟩
    · simp only [h4, h6, false_and, or_false, true_iff]
      exact ⟨fun h => absurd h h4, fun h => absurd h h6⟩

/-- Both programs end, and they agree on a frame exactly if it is clear. -/
theorem filters_agree_iff (env : EbpfMachine.Env) :
    ∃ n v calls, CbpfMachine.run dnsFilter env.frame 20 start = .keep n ∧
      EbpfMachine.run RedirectFilter.bpfFilter env 40 EbpfMachine.start = .halt v calls ∧
      ((n ≠ 0 ↔ ∃ c ∈ calls, c.helper = 51) ↔ Clear env.frame) := by
  have hkeep := filter_ends env.frame 20 (by decide)
  have hrun := RedirectFilter.filter_ends env 40 (Nat.le_refl 40)
  have hn : (if accepts env.frame then 0x40000 else 0) ≠ 0 ↔ accepts env.frame = true := by
    split <;> simp [*]
  rw [← accepts_eq_redirects_iff, ← hn]
  by_cases hred : RedirectFilter.redirects env.frame = true
  · rw [if_pos hred] at hrun
    refine ⟨_, _, _, hkeep, hrun, ?_⟩
    simp [hred]
  · rw [if_neg hred] at hrun
    refine ⟨_, _, _, hkeep, hrun, ?_⟩
    simp [hred]

/-- The second fragment of a datagram whose data has the port of DNS in front. -/
def laterFragment : Bytes :=
  [0, 0, 0, 0, 0, 2, 0, 0, 0, 0, 0, 1, 0x08, 0x00, 0x45, 0, 0, 28, 0, 1, 0x00, 0xb9, 64, 17, 0, 0,
    10, 0, 0, 1, 10, 0, 0, 2, 0x00, 0x35, 0x12, 0x34, 0, 0, 0, 0]

def cutFrame : Bytes := laterFragment.take 20 ++ [0, 0] ++ (laterFragment.drop 22).take 16

theorem filters_disagree :
    (CbpfMachine.run dnsFilter laterFragment 20 start = .keep 0 ∧
      ∃ v, EbpfMachine.run RedirectFilter.bpfFilter ⟨laterFragment, 0, 4⟩ 40 EbpfMachine.start =
        .halt v [⟨51, .num 0, .num 1⟩]) ∧
    CbpfMachine.run dnsFilter cutFrame 20 start = .keep 0x40000 ∧
      EbpfMachine.run RedirectFilter.bpfFilter ⟨cutFrame, 0, 4⟩ 40 EbpfMachine.start =
        .halt (.num 1) [] := by
  refine ⟨⟨by decide +kernel, .num 4, by decide +kernel⟩, by decide +kernel, by decide +kernel⟩

end DnsPkt.SocketFilter
