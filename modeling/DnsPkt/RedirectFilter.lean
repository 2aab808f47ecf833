import DnsPkt.EbpfMachine
import DnsPkt.Inspector

/-!
# The filter of the express path

The words of `bpf_filter` in `dns_insp.c`, as they are loaded for capture by
AF_XDP. Whatever the frame, the program ends: it calls the helper that
redirects the frame to the socket exactly if the frame has the headers of a
DNS packet, and drops it otherwise.
-/

set_option autoImplicit false

namespace DnsPkt.RedirectFilter
open DnsPkt.Octets DnsPkt.ByteOrder DnsPkt.StepMachine DnsPkt.EbpfMachine DnsPkt.Inspector

def bpfFilter : List ℕ :=
  [0x0000000000041361, 0x0000000000001061, 0x00000000000002bf, 0x0000000e00000207,
    0x00000000000623ad, 0x00000000000d0571, 0x0000000800000567, 0x00000000000c0471,
    0x000000000000454f, 0x0000000800030516, 0x0000dd86001e0516, 0x00000001000000b7,
    0x0000000000000095, 0x00000000000002bf, 0x0000002200000207, 0x00000000fffb23ad,
    0x00000000000e0461, 0x0000000f00000457, 0x00000004fff804b6, 0x0000000200000467,
    0x0000000e00000407, 0x00000000000005bf, 0x000000000000450f, 0x00000000fff353ad,
    0x0000000000170071, 0x00000011fff10055, 0x00000000000052bf, 0x0000000800000207,
    0x00000000ffee23ad, 0x0000000000025369, 0x0000350000020315, 0x0000000000005569,
    0x00003500ffea0555, 0x00000001000003b7, 0x0000000000101261, 0x0000000000000118,
    0x0000000000000000, 0x0000003300000085, 0x0000002000000067, 0x00000020000000c7,
    0x0000000000000095, 0x00000000000005bf, 0x0000003600000507, 0x00000000ffdf53ad,
    0x0000000000140071, 0x00000011ffdd0055, 0x00000000ffeb0005]

/-- The instructions of the words; the second half of a long number is none. -/
def listing : List (Option Insn) :=
  [some (.ldx 4 3 1 4), some (.ldx 4 0 1 0), some (.alu .mov 2 (.reg 0)),
    some (.alu .add 2 (.imm 0xe)), some (.jmp .jlt true 3 (.reg 2) 6), some (.ldx 1 5 0 0xd),
    some (.alu .lsh 5 (.imm 8)), some (.ldx 1 4 0 0xc), some (.alu .or 5 (.reg 4)),
    some (.jmp .jeq false 5 (.imm 8) 3), some (.jmp .jeq false 5 (.imm 0xdd86) 30),
    some (.alu .mov 0 (.imm 1)), some .exit, some (.alu .mov 2 (.reg 0)),
    some (.alu .add 2 (.imm 0x22)), some (.jmp .jlt true 3 (.reg 2) (-5)),
    some (.ldx 4 4 0 0xe), some (.alu .and 4 (.imm 0xf)), some (.jmp .jle false 4 (.imm 4) (-8)),
    some (.alu .lsh 4 (.imm 2)), some (.alu .add 4 (.imm 0xe)), some (.alu .mov 5 (.reg 0)),
    some (.alu .add 5 (.reg 4)), some (.jmp .jlt true 3 (.reg 5) (-13)), some (.ldx 1 0 0 0x17),
    some (.jmp .jne true 0 (.imm 0x11) (-15)), some (.alu .mov 2 (.reg 5)),
    some (.alu .add 2 (.imm 8)), some (.jmp .jlt true 3 (.reg 2) (-18)), some (.ldx 2 3 5 2),
    some (.jmp .jeq true 3 (.imm 0x3500) 2), some (.ldx 2 5 5 0),
    some (.jmp .jne true 5 (.imm 0x3500) (-22)), some (.alu .mov 3 (.imm 1)),
    some (.ldx 4 2 1 0x10), some (.lddw 1 0), none, some (.call 51),
    some (.alu .lsh 0 (.imm 0x20)), some (.alu .arsh 0 (.imm 0x20)), some .exit,
    some (.alu .mov 5 (.reg 0)), some (.alu .add 5 (.imm 0x36)),
    some (.jmp .jlt true 3 (.reg 5) (-33)), some (.ldx 1 0 0 0x14),
    some (.jmp .jne true 0 (.imm 0x11) (-35)), some (.ja (-21))]

theorem fetch_listing : ∀ pc < 47, fetch bpfFilter pc = listing.getD pc none := by decide

theorem load_bytes (f : Bytes) {i n : ℕ} (h : i+1 ≤ f.length) :
    load (slice f i (n+1)) = byteAt f i+256*load (slice f (i+1) n) := by
  rw [slice, List.drop_eq_getElem_cons h, List.take_succ_cons, load, byteAt,
    List.getD_eq_getElem?_getD, List.getElem?_eq_getElem h]
  rfl

theorem load_byte (f : Bytes) {i : ℕ} (h : i+1 ≤ f.length) : load (slice f i 1) = byteAt f i := by
  rw [load_bytes f h]
  rfl

theorem load_word (f : Bytes) {i : ℕ} (h : i+2 ≤ f.length) :
    load (slice f i 2) = byteAt f i+256*byteAt f (i+1) := by
  rw [load_bytes f (by omega), load_byte f (by omega)]

theorem byteAt_lt (f : Bytes) (i : ℕ) : byteAt f i < 256 := UInt8.toNat_lt _

/-- A field in network order, compared with a constant that has its bytes swapped. -/
theorem port_iff (f : Bytes) (i : ℕ) :
    byteAt f i+256*byteAt f (i+1) = 0x3500 ↔ wordAt f i = 53 := by
  have h1 := byteAt_lt f i
  have h2 := byteAt_lt f (i+1)
  rw [wordAt]
  omega

theorem load_nibble (f : Bytes) {i : ℕ} (h : i+4 ≤ f.length) :
    load (slice f i 4) &&& 15 = byteAt f i % 16 := by
  rw [load_bytes f (by omega), Nat.and_two_pow_sub_one_eq_mod _ 4]
  omega

/-- The type of a frame, read low byte first. -/
theorem load_type (f : Bytes) (i : ℕ) :
    aluNum .or (aluNum .lsh (byteAt f (i+1)) 8) (byteAt f i) =
      byteAt f (i+1)*256+byteAt f i := by
  have h1 := byteAt_lt f i
  have h2 := byteAt_lt f (i+1)
  have hshift : byteAt f (i+1) <<< 8 = byteAt f (i+1)*256 := Nat.shiftLeft_eq _ _
  change byteAt f (i+1) <<< 8 % 2^64 ||| byteAt f i = _
  rw [Nat.mod_eq_of_lt (by omega), ← Nat.shiftLeft_add_eq_or_of_lt (i := 8) h1, hshift]

section Blocks

variable (env : Env)

abbrev LeadsTo : ℕ → State → State → Prop := Leads (step bpfFilter env) (.trap .rounds)

abbrev EndsIn : ℕ → State → Result → Prop := Ends (step bpfFilter env) (.trap .rounds)

def line (pc : ℕ) (r0 r2 r3 r4 r5 : Val) : State :=
  ⟨pc, [r0, .ctx 0, r2, r3, r4, r5, .undef, .undef, .undef, .undef, .undef], []⟩

def dropped : Result := .halt (.num 1) []

/-- The program ends with what the helper returned, as a number of 32 bits. -/
def redirected : Result :=
  .halt (.num (aluNum .arsh (aluNum .lsh env.ret 0x20) 0x20)) [⟨51, .num env.rxQueue, .num 1⟩]

variable {env}

theorem drop_ends {r0 r2 r3 r4 r5 : Val} :
    EndsIn env 2 (line 11 r0 r2 r3 r4 r5) dropped := by
  have h : LeadsTo env 1 (line 11 r0 r2 r3 r4 r5) (line 12 (.num 1) r2 r3 r4 r5) :=
    fun _ => rfl
  exact h.ends (ends_done rfl)

theorem redirect_ends {r0 r2 r3 r4 r5 : Val} :
    EndsIn env 7 (line 33 r0 r2 r3 r4 r5) (redirected env) := by
  have h : LeadsTo env 6 (line 33 r0 r2 r3 r4 r5)
      ⟨40, [.num (aluNum .arsh (aluNum .lsh env.ret 0x20) 0x20), .undef, .undef, .undef, .undef,
        .undef, .undef, .undef, .undef, .undef, .undef],
        [⟨51, .num env.rxQueue, .num 1⟩]⟩ := fun _ => rfl
  exact h.ends (ends_done rfl)

/-- The lines that test the ports behind an IP header. -/
theorem ports_end {r0 r2 r4 : Val} {p : ℕ} :
    EndsIn env 14 (line 26 r0 r2 (.pkt env.frame.length) r4 (.pkt p))
      (if (udpEnd env.frame p).isSome then redirected env else dropped) := by
  have hfront : LeadsTo env 2 (line 26 r0 r2 (.pkt env.frame.length) r4 (.pkt p))
      (line 28 r0 (.pkt (p+8)) (.pkt env.frame.length) r4 (.pkt p)) := fun _ => rfl
  apply hfront.ends
  apply ends_jmp (line ..) (env.frame.length < p+8) (fetch_listing 28 (by decide)) rfl
  · intro hlen
    rw [if_neg (by rw [udpEnd_isSome]; omega)]
    exact drop_ends.more (by decide)
  intro hlen
  apply ends_load (line 29 ..) 2 (fetch_listing 29 (by decide)) rfl (by omega)
  rw [load_word _ (by omega)]
  apply ends_jmp (line 30 ..) (byteAt env.frame (p+2)+256*byteAt env.frame (p+2+1) = 0x3500)
    (fetch_listing 30 (by decide)) rfl
  · intro hport
    rw [if_pos ((udpEnd_isSome _ _).mpr ⟨by omega, .inr ((port_iff _ _).mp hport)⟩)]
    exact redirect_ends.more (by decide)
  intro hdst
  apply ends_load (line 31 ..) 0 (fetch_listing 31 (by decide)) rfl (by omega)
  rw [Nat.add_zero, load_word _ (by omega)]
  apply ends_jmp (line 32 ..) (byteAt env.frame p+256*byteAt env.frame (p+1) ≠ 0x3500)
    (fetch_listing 32 (by decide)) rfl
  · intro hsrc
    have hnone : ¬ (udpEnd env.frame p).isSome := by
      rw [udpEnd_isSome, ← port_iff, ← port_iff]
      exact fun h => h.2.elim hsrc hdst
    rw [if_neg hnone]
    exact drop_ends.more (by decide)
  · intro hsrc
    rw [if_pos ((udpEnd_isSome _ _).mpr ⟨by omega, .inl ((port_iff _ _).mp (not_not.mp hsrc))⟩)]
    exact redirect_ends.more (by decide)

/-- Where the program looks for the UDP header. It takes any version for the
one that the type of the frame tells. -/
def udpStart (f : Bytes) : Option ℕ :=
  if f.length < 14 then none
  else if wordAt f 12 = ethPIp then
    if 34 ≤ f.length ∧ 5 ≤ byteAt f 14 % 16 ∧ 14+byteAt f 14 % 16*4 ≤ f.length ∧
        byteAt f 23 = ipprotoUdp then
      some (14+byteAt f 14 % 16*4)
    else none
  else if wordAt f 12 = ethPIpv6 then
    if 54 ≤ f.length ∧ byteAt f 20 = ipprotoUdp then some 54 else none
  else none

def redirects (f : Bytes) : Bool := ((udpStart f).bind (udpEnd f)).isSome

variable (env) in
def verdictOf (start : Option ℕ) : Result :=
  if (start.bind (udpEnd env.frame)).isSome then redirected env else dropped

theorem verdictOf_none : verdictOf env none = dropped := if_neg (by simp)

theorem v4_end {r4 r5 : Val} :
    EndsIn env 27 (line 13 (.pkt 0) (.pkt 14) (.pkt env.frame.length) r4 r5)
      (verdictOf env (if 34 ≤ env.frame.length ∧ 5 ≤ byteAt env.frame 14 % 16 ∧
          14+byteAt env.frame 14 % 16*4 ≤ env.frame.length ∧ byteAt env.frame 23 = ipprotoUdp then
        some (14+byteAt env.frame 14 % 16*4) else none)) := by
  have hfront : LeadsTo env 2 (line 13 (.pkt 0) (.pkt 14) (.pkt env.frame.length) r4 r5)
      (line 15 (.pkt 0) (.pkt 34) (.pkt env.frame.length) r4 r5) := fun _ => rfl
  apply hfront.ends
  apply ends_jmp (line ..) (env.frame.length < 34) (fetch_listing 15 (by decide)) rfl
  · intro hlen
    rw [if_neg (by omega), verdictOf_none]
    exact drop_ends.more (by decide)
  intro hlen
  apply ends_load (line 16 ..) 14 (fetch_listing 16 (by decide)) rfl (by omega)
  have hand : LeadsTo env 1
      (line 17 (.pkt 0) (.pkt 34) (.pkt env.frame.length)
        (.num (load (slice env.frame (0+14) 4))) r5)
      (line 18 (.pkt 0) (.pkt 34) (.pkt env.frame.length)
        (.num (load (slice env.frame (0+14) 4) &&& 15)) r5) := fun _ => rfl
  apply hand.ends
  rw [load_nibble _ (by omega), Nat.zero_add]
  have hnib : byteAt env.frame 14 % 16 < 16 := Nat.mod_lt _ (by decide)
  generalize byteAt env.frame 14 % 16 = ihl at hnib ⊢
  apply ends_jmp (line 18 ..) (ihl % 2^32 ≤ 4 % 2^32) (fetch_listing 18 (by decide)) rfl
  · intro hshort
    rw [if_neg (by omega), verdictOf_none]
    exact drop_ends.more (by decide)
  intro hihl
  have hptr : LeadsTo env 4
      (line 19 (.pkt 0) (.pkt 34) (.pkt env.frame.length) (.num ihl) r5)
      (line 23 (.pkt 0) (.pkt 34) (.pkt env.frame.length)
        (.num ((ihl <<< 2 % 2^64+14) % 2^64)) (.pkt (0+(ihl <<< 2 % 2^64+14) % 2^64))) :=
    fun _ => rfl
  have hsum : (ihl <<< 2 % 2^64+14) % 2^64 = 14+ihl*4 := by
    rw [Nat.shiftLeft_eq]
    omega
  apply hptr.ends
  rw [hsum, Nat.zero_add]
  apply ends_jmp (line 23 ..) (env.frame.length < 14+ihl*4) (fetch_listing 23 (by decide)) rfl
  · intro hlong
    rw [if_neg (by omega), verdictOf_none]
    exact drop_ends.more (by decide)
  intro hroom
  apply ends_load (line 24 ..) 23 (fetch_listing 24 (by decide)) rfl (by omega)
  rw [load_byte _ (by omega), Nat.zero_add]
  apply ends_jmp (line 25 ..) (byteAt env.frame 23 ≠ ipprotoUdp) (fetch_listing 25 (by decide)) rfl
  · intro hproto
    rw [if_neg (by omega), verdictOf_none]
    exact drop_ends.more (by decide)
  · intro hproto
    rw [if_pos (by omega)]
    exact ports_end

theorem v6_end {r4 r5 : Val} :
    EndsIn env 20 (line 41 (.pkt 0) (.pkt 14) (.pkt env.frame.length) r4 r5)
      (verdictOf env (if 54 ≤ env.frame.length ∧ byteAt env.frame 20 = ipprotoUdp then some 54
        else none)) := by
  have hfront : LeadsTo env 2 (line 41 (.pkt 0) (.pkt 14) (.pkt env.frame.length) r4 r5)
      (line 43 (.pkt 0) (.pkt 14) (.pkt env.frame.length) r4 (.pkt 54)) := fun _ => rfl
  apply hfront.ends
  apply ends_jmp (line ..) (env.frame.length < 54) (fetch_listing 43 (by decide)) rfl
  · intro hlen
    rw [if_neg (by omega), verdictOf_none]
    exact drop_ends.more (by decide)
  intro hlen
  apply ends_load (line 44 ..) 20 (fetch_listing 44 (by decide)) rfl (by omega)
  rw [load_byte _ (by omega), Nat.zero_add]
  apply ends_jmp (line 45 ..) (byteAt env.frame 20 ≠ ipprotoUdp) (fetch_listing 45 (by decide)) rfl
  · intro hproto
    rw [if_neg (by omega), verdictOf_none]
    exact drop_ends.more (by decide)
  · intro hproto
    rw [if_pos (by omega)]
    have hja (r0 : Val) : LeadsTo env 1
        (line 46 r0 (.pkt 14) (.pkt env.frame.length) r4 (.pkt 54))
        (line 26 r0 (.pkt 14) (.pkt env.frame.length) r4 (.pkt 54)) := fun _ => rfl
    exact ((hja _).ends ports_end).more (by decide)

/-- The program ends, without a load outside the frame, and redirects just
the frames it should. -/
theorem filter_ends (env : Env) : EndsIn env 40 start
    (if redirects env.frame then redirected env else dropped) := by
  change EndsIn env 40 start (verdictOf env (udpStart env.frame))
  have hfront : LeadsTo env 4 start
      (line 4 (.pkt 0) (.pkt 14) (.pkt env.frame.length) .undef .undef) := fun _ => rfl
  apply hfront.ends
  rw [udpStart]
  apply ends_jmp (line ..) (env.frame.length < 14) (fetch_listing 4 (by decide)) rfl
  · intro hlen
    rw [if_pos hlen, verdictOf_none]
    exact drop_ends.more (by decide)
  intro hlen
  rw [if_neg hlen]
  apply ends_load (line 5 ..) 13 (fetch_listing 5 (by decide)) rfl (by omega)
  have hlsh (v : ℕ) : LeadsTo env 1
      (line 6 (.pkt 0) (.pkt 14) (.pkt env.frame.length) .undef (.num v))
      (line 7 (.pkt 0) (.pkt 14) (.pkt env.frame.length) .undef (.num (aluNum .lsh v 8))) :=
    fun _ => rfl
  apply (hlsh _).ends
  apply ends_load (line 7 ..) 12 (fetch_listing 7 (by decide)) rfl (by omega)
  have hor (v w : ℕ) : LeadsTo env 1
      (line 8 (.pkt 0) (.pkt 14) (.pkt env.frame.length) (.num w) (.num v))
      (line 9 (.pkt 0) (.pkt 14) (.pkt env.frame.length) (.num w) (.num (aluNum .or v w))) :=
    fun _ => rfl
  apply (hor _ _).ends
  rw [load_byte _ (by omega), load_byte _ (by omega), Nat.zero_add, Nat.zero_add, load_type]
  have hhi := byteAt_lt env.frame 12
  have hlo := byteAt_lt env.frame 13
  have htype : wordAt env.frame 12 = byteAt env.frame 12*256+byteAt env.frame 13 := rfl
  apply ends_jmp (line 9 ..) ((byteAt env.frame 13*256+byteAt env.frame 12) % 2^32 = 8 % 2^32)
    (fetch_listing 9 (by decide)) rfl
  · intro hip
    rw [if_pos (show wordAt env.frame 12 = 0x0800 by omega)]
    exact v4_end.more (by decide)
  intro hip
  rw [if_neg (show ¬ wordAt env.frame 12 = 0x0800 by omega)]
  apply ends_jmp (line 10 ..) ((byteAt env.frame 13*256+byteAt env.frame 12) % 2^32 = 0xdd86 % 2^32)
    (fetch_listing 10 (by decide)) rfl
  · intro hip6
    rw [if_pos (show wordAt env.frame 12 = 0x86dd by omega)]
    exact v6_end.more (by decide)
  · intro hip6
    rw [if_neg (show ¬ wordAt env.frame 12 = 0x86dd by omega), verdictOf_none]
    exact drop_ends.more (by decide)

end Blocks

/-- The frame has no tag, and its IP version is the one that its type tells. -/
structure Plain (f : Bytes) : Prop where
  untagged : 14 ≤ f.length → ¬ isVlan (wordAt f 12)
  version4 : 14 < f.length → wordAt f 12 = ethPIp → byteAt f 14/16 = 4
  version6 : 14 < f.length → wordAt f 12 = ethPIpv6 → byteAt f 14/16 = 6

theorem ethEnd_plain {f : Bytes} (h : Plain f) (hlen : 14 ≤ f.length) :
    ethEnd f = some (wordAt f 12, 14) := by
  rw [ethEnd, if_neg (Nat.not_lt.mpr hlen), tagsEnd, if_neg (h.untagged hlen)]

theorem dnsStart_plain {f : Bytes} (h : Plain f) :
    dnsStart f = (udpStart f).bind (udpEnd f) := by
  rw [udpStart]
  by_cases hlen : f.length < 14
  · rw [dnsStart, ethEnd, if_pos hlen, if_pos hlen]
    rfl
  have hstart : dnsStart f = (ipEnd f (wordAt f 12) 14).bind (udpEnd f) := by
    rw [dnsStart, ethEnd_plain h (by omega)]
    rfl
  rw [hstart, if_neg hlen, ipEnd]
  congr 1
  by_cases hip : wordAt f 12 = ethPIp
  · rw [if_pos hip, if_pos hip]
    have hver (hin : 14 < f.length) := h.version4 hin hip
    by_cases hfit : 34 ≤ f.length
    · specialize hver (by omega)
      simp only [hver, true_and, and_comm]
    · rw [if_neg (by omega), if_neg (by omega)]
  · rw [if_neg hip, if_neg hip]
    by_cases hip6 : wordAt f 12 = ethPIpv6
    · rw [if_pos hip6, if_pos hip6]
      have hver (hin : 14 < f.length) := h.version6 hin hip6
      by_cases hfit : 54 ≤ f.length
      · specialize hver (by omega)
        simp only [hver, true_and]
      · rw [if_neg (by omega), if_neg (by omega)]
    · rw [if_neg hip6, if_neg hip6]

/-- The program calls the redirect helper for the frames that the inspector
counts as DNS and drops the others; no load leaves the frame. -/
theorem redirect_iff_counts (env : Env) (s : DnsInsp) (h : Plain env.frame) :
    ∃ v calls, EbpfMachine.run bpfFilter env 40 start = .halt v calls ∧
      ((∃ c ∈ calls, c.helper = 51) ↔ Counts env.frame s) ∧
      (¬ Counts env.frame s → v = .num 1) := by
  have hrun := filter_ends env 40 (Nat.le_refl 40)
  have hsame : redirects env.frame = true ↔ Counts env.frame s := by
    rw [counts_iff, dnsStart_plain h, redirects]
  by_cases hcount : Counts env.frame s
  · rw [if_pos (hsame.mpr hcount)] at hrun
    exact ⟨_, _, hrun, iff_of_true ⟨_, List.mem_singleton_self _, rfl⟩ hcount, absurd hcount⟩
  · rw [if_neg (mt hsame.mp hcount)] at hrun
    exact ⟨_, _, hrun, iff_of_false (by simp) hcount, fun _ => rfl⟩

def dnsFrame : Bytes :=
  [0, 0, 0, 0, 0, 2, 0, 0, 0, 0, 0, 1, 0x08, 0x00, 0x45, 0, 0, 28, 0, 0, 0, 0, 64, 17, 0, 0,
    10, 0, 0, 1, 10, 0, 0, 2, 0x80, 0x01, 0x00, 0x35, 0, 8, 0, 0]

theorem dnsFrame_redirected : ∃ v calls,
    EbpfMachine.run bpfFilter ⟨dnsFrame, 0, 4⟩ 40 start = .halt v calls ∧
      ∃ c ∈ calls, c.helper = 51 := by
  have hplain : Plain dnsFrame := ⟨by decide, by decide, by decide⟩
  obtain ⟨v, calls, hrun, hiff, -⟩ :=
    redirect_iff_counts ⟨dnsFrame, 0, 4⟩ ⟨0, 0, 0, 0, []⟩ hplain
  have hcount : Counts dnsFrame ⟨0, 0, 0, 0, []⟩ := (counts_iff _ _).mpr (by decide)
  exact ⟨v, calls, hrun, hiff.mpr hcount⟩

end DnsPkt.RedirectFilter
