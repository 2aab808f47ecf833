import DnsPkt.Protocol
import DnsPkt.WireName

/-!
# The name decoder

`decode_name` walks labels and compression pointers from the decoder's
offset. The offset moves over the bytes in place only; after the first
pointer the walk continues elsewhere in the packet. Every packet read is a
checked access. The text bytes are those stored through `name`, also when
the walk fails part way.
-/

set_option autoImplicit false

namespace DnsPkt.NameDecoder
open DnsPkt.Octets DnsPkt.WireName DnsPkt.Protocol

structure NameScan where
  idx : ℕ
  offset : ℕ
  outLen : ℕ
  njmp : ℕ
  out : Bytes

structure NameOut where
  result : Except DnsEc ℕ
  offset : ℕ
  out : Bytes

def NameScan.fail (s : NameScan) (ec : DnsEc) : NameOut := ⟨.error ec, s.offset, s.out⟩

def pktByte (pkt : Bytes) (i : ℕ) : Except Fault UInt8 :=
  match pkt[i]? with
  | some c => .ok c
  | none => .error (.pktRead i)

def pktSlice (pkt : Bytes) (i n : ℕ) : Except Fault Bytes :=
  if n = 0 ∨ i+n ≤ pkt.length then .ok (slice pkt i n) else .error (.pktRead (max i pkt.length))

def nameStep (pkt : Bytes) (s : NameScan) : Except Fault (NameScan ⊕ NameOut) :=
  if pkt.length ≤ s.idx then .ok (.inr (s.fail .enonull)) else
  pktByte pkt s.idx >>= fun len =>
  if len &&& 0xC0 = 0xC0 then
    if s.idx+1 = pkt.length then .ok (.inr (s.fail .ebadjmp))
    else if dnsMaxJmp < s.njmp then .ok (.inr (s.fail .emaxjmp))
    else
      let offset := if s.njmp = 0 then s.offset+2 else s.offset
      pktByte pkt (s.idx+1) >>= fun lo =>
      let jmp := ((len &&& 0x3F).toNat <<< 8) ||| lo.toNat
      if jmp < 12 then .ok (.inr ⟨.error .ebadjmp, offset, s.out⟩)
      else if pkt.length < jmp then .ok (.inr ⟨.error .ebadjmp, offset, s.out⟩)
      else .ok (.inl { s with idx := jmp, offset := offset, njmp := s.njmp+1 })
  else
    if pkt.length-(s.idx+1) < len.toNat then .ok (.inr (s.fail .enamelen))
    else if s.outLen < len.toNat then .ok (.inr (s.fail .eoutlen))
    else
      let offset := if s.njmp = 0 then s.offset+(1+len.toNat) else s.offset
      if len = 0 then
        if s.outLen = 0 then .ok (.inr ⟨.error .eoutlen, offset, s.out⟩)
        else .ok (.inr ⟨.ok (s.out.length+1), offset, s.out ++ [0]⟩)
      else
        pktSlice pkt (s.idx+1) len.toNat >>= fun label =>
        let idx := s.idx+1+len.toNat
        let outLen := s.outLen-len.toNat
        let out := s.out ++ label
        if outLen = 0 then .ok (.inr ⟨.error .eoutlen, offset, out⟩)
        else if idx < pkt.length then
          pktByte pkt idx >>= fun next =>
          if next = 0 then .ok (.inl ⟨idx, offset, outLen, s.njmp, out⟩)
          else .ok (.inl ⟨idx, offset, outLen-1, s.njmp, out ++ [46]⟩)
        else .ok (.inl ⟨idx, offset, outLen, s.njmp, out⟩)

def nameLoop (pkt : Bytes) : ℕ → NameScan → Except Fault NameOut
  | 0, _ => .error .fuel
  | k+1, s => nameStep pkt s >>= fun
    | .inl s' => nameLoop pkt k s'
    | .inr r => .ok r

/-- `decode_name` with room for `nlen` bytes. The fuel bounds the labels and
pointers that a walk with a limited number of jumps can visit. -/
def decodeName (pkt : Bytes) (offset nlen : ℕ) : Except Fault NameOut :=
  nameLoop pkt ((dnsMaxJmp+3)*(pkt.length+1)) ⟨offset, offset, nlen, 0, []⟩

theorem comp_ptr_iff (len : UInt8) : len &&& 0xC0 = 0xC0 ↔ 192 ≤ len.toNat := by
  have table : ∀ i : Fin 256, UInt8.ofNat i &&& 0xC0 = 0xC0 ↔ 192 ≤ i.val := by
    decide +kernel
  simpa using table ⟨len.toNat, len.toNat_lt⟩

theorem jump_target (hi lo : UInt8) :
    ((hi &&& 0x3F).toNat <<< 8) ||| lo.toNat = target hi lo := by
  have hm : (hi &&& 0x3F).toNat = hi.toNat % 64 := by
    rw [UInt8.toNat_and]
    exact Nat.and_two_pow_sub_one_eq_mod hi.toNat 6
  rw [hm, ← Nat.shiftLeft_add_eq_or_of_lt lo.toNat_lt, Nat.shiftLeft_eq]
  rfl

theorem pktByte_of_lt (pkt : Bytes) (i : ℕ) (h : i < pkt.length) :
    ∃ c, pkt[i]? = some c ∧ pktByte pkt i = .ok c :=
  ⟨pkt[i], by simp [h], by simp [pktByte, h]⟩

theorem pktSlice_of_le {pkt : Bytes} {i n : ℕ} (h : i+n ≤ pkt.length) :
    pktSlice pkt i n = .ok (slice pkt i n) := by
  simp [pktSlice, h]

def NameScan.jumped (s : NameScan) (jmp : ℕ) : NameScan :=
  { s with
    idx := jmp
    offset := if s.njmp = 0 then s.offset+2 else s.offset
    njmp := s.njmp+1 }

def NameScan.copied (s : NameScan) (pkt : Bytes) (len : ℕ) (sep : Bytes) : NameScan :=
  ⟨s.idx+1+len, if s.njmp = 0 then s.offset+(1+len) else s.offset,
    s.outLen-len-sep.length, s.njmp, s.out ++ (slice pkt (s.idx+1) len ++ sep)⟩

/-- Everything one iteration can do. Failures keep the stored text within
the room that was left and leave the offset inside the packet. -/
inductive NameStep (pkt : Bytes) (s : NameScan) : NameScan ⊕ NameOut → Prop
  | stop (ec : DnsEc) (offset : ℕ) (extra : Bytes) (hroom : extra.length ≤ s.outLen)
      (hge : s.offset ≤ offset)
      (hin : s.njmp = 0 → s.offset = s.idx → s.offset ≤ pkt.length → offset ≤ pkt.length)
      (hjmp : s.njmp ≠ 0 → offset = s.offset) :
      NameStep pkt s (.inr ⟨.error ec, offset, s.out ++ extra⟩)
  | done (h : pkt[s.idx]? = some 0) (hroom : 0 < s.outLen) :
      NameStep pkt s (.inr ⟨.ok (s.out.length+1),
        if s.njmp = 0 then s.offset+1 else s.offset, s.out ++ [0]⟩)
  | jump (hi lo : UInt8) (h1 : pkt[s.idx]? = some hi) (hh : 192 ≤ hi.toNat)
      (h2 : pkt[s.idx+1]? = some lo) (hj : s.njmp ≤ dnsMaxJmp) (hlo : 12 ≤ target hi lo)
      (hle : target hi lo ≤ pkt.length) :
      NameStep pkt s (.inl (s.jumped (target hi lo)))
  | label (len : UInt8) (h : pkt[s.idx]? = some len) (hpos : 0 < len.toNat)
      (hnp : len.toNat < 192) (hin : s.idx+1+len.toNat ≤ pkt.length) (sep : Bytes)
      (hsep : ∀ next, pkt[s.idx+1+len.toNat]? = some next → sep = separator next)
      (hone : sep.length ≤ 1) (hroom : len.toNat < s.outLen) :
      NameStep pkt s (.inl (s.copied pkt len.toNat sep))

def pointerStep (pkt : Bytes) (s : NameScan) (hi : UInt8) : Except Fault (NameScan ⊕ NameOut) :=
  if s.idx+1 = pkt.length then .ok (.inr (s.fail .ebadjmp))
  else if dnsMaxJmp < s.njmp then .ok (.inr (s.fail .emaxjmp))
  else
    let offset := if s.njmp = 0 then s.offset+2 else s.offset
    pktByte pkt (s.idx+1) >>= fun lo =>
    if target hi lo < 12 then .ok (.inr ⟨.error .ebadjmp, offset, s.out⟩)
    else if pkt.length < target hi lo then .ok (.inr ⟨.error .ebadjmp, offset, s.out⟩)
    else .ok (.inl (s.jumped (target hi lo)))

def labelStep (pkt : Bytes) (s : NameScan) (len : UInt8) : Except Fault (NameScan ⊕ NameOut) :=
  if pkt.length-(s.idx+1) < len.toNat then .ok (.inr (s.fail .enamelen))
  else if s.outLen < len.toNat then .ok (.inr (s.fail .eoutlen))
  else
    let offset := if s.njmp = 0 then s.offset+(1+len.toNat) else s.offset
    if len = 0 then
      if s.outLen = 0 then .ok (.inr ⟨.error .eoutlen, offset, s.out⟩)
      else .ok (.inr ⟨.ok (s.out.length+1), offset, s.out ++ [0]⟩)
    else
      pktSlice pkt (s.idx+1) len.toNat >>= fun label =>
      let idx := s.idx+1+len.toNat
      let outLen := s.outLen-len.toNat
      let out := s.out ++ label
      if outLen = 0 then .ok (.inr ⟨.error .eoutlen, offset, out⟩)
      else if idx < pkt.length then
        pktByte pkt idx >>= fun next =>
        if next = 0 then .ok (.inl ⟨idx, offset, outLen, s.njmp, out⟩)
        else .ok (.inl ⟨idx, offset, outLen-1, s.njmp, out ++ [46]⟩)
      else .ok (.inl ⟨idx, offset, outLen, s.njmp, out⟩)

section Step

variable {pkt : Bytes} {s : NameScan} {c : UInt8}

theorem nameStep_end (h : pkt.length ≤ s.idx) :
    nameStep pkt s = .ok (.inr (s.fail .enonull)) := by
  rw [nameStep, if_pos h]

theorem nameStep_byte (h : pkt[s.idx]? = some c) : nameStep pkt s =
    if 192 ≤ c.toNat then pointerStep pkt s c else labelStep pkt s c := by
  obtain ⟨len, hlen, hread⟩ := pktByte_of_lt pkt s.idx (get_lt h)
  obtain rfl := get_inj hlen h
  simp only [nameStep, if_neg (Nat.not_le.mpr (get_lt h)), hread, bind, Except.bind, comp_ptr_iff,
    jump_target]
  rfl

theorem stop_stays (ec : DnsEc) : NameStep pkt s (.inr (s.fail ec)) := by
  simpa [NameScan.fail] using @NameStep.stop pkt s ec s.offset [] (by simp)
    (le_refl _) (fun _ _ h => h) (fun _ => rfl)

theorem pointerStep_spec (h : pkt[s.idx]? = some c) (hptr : 192 ≤ c.toNat) :
    ∃ r, pointerStep pkt s c = .ok r ∧ NameStep pkt s r := by
  have hidx := get_lt h
  rw [pointerStep]
  by_cases hend : s.idx+1 = pkt.length
  · rw [if_pos hend]
    exact ⟨_, rfl, stop_stays .ebadjmp⟩
  rw [if_neg hend]
  by_cases hj : dnsMaxJmp < s.njmp
  · rw [if_pos hj]
    exact ⟨_, rfl, stop_stays .emaxjmp⟩
  obtain ⟨lo, hlo, hread⟩ := pktByte_of_lt pkt (s.idx+1) (by omega)
  simp only [if_neg hj, hread, bind, Except.bind]
  have bad : NameStep pkt s (.inr ⟨.error .ebadjmp,
      if s.njmp = 0 then s.offset+2 else s.offset, s.out⟩) := by
    have := @NameStep.stop pkt s .ebadjmp
      (if s.njmp = 0 then s.offset+2 else s.offset) [] (by simp) (by split_ifs <;> omega)
      (fun h0 h1 h2 => by simp only [h0, if_true]; omega) (fun h => if_neg h)
    simpa using this
  by_cases h12 : target c lo < 12
  · rw [if_pos h12]
    exact ⟨_, rfl, bad⟩
  rw [if_neg h12]
  by_cases hout : pkt.length < target c lo
  · rw [if_pos hout]
    exact ⟨_, rfl, bad⟩
  · rw [if_neg hout]
    exact ⟨_, rfl, NameStep.jump c lo h hptr hlo (by omega) (by omega) (by omega)⟩

theorem rootStep_spec (h : pkt[s.idx]? = some 0) :
    ∃ r, labelStep pkt s 0 = .ok r ∧ NameStep pkt s r := by
  have hidx := get_lt h
  simp only [labelStep, UInt8.toNat_zero, Nat.not_lt_zero, if_false, if_true]
  by_cases hz : s.outLen = 0
  · rw [if_pos hz]
    have := @NameStep.stop pkt s .eoutlen
      (if s.njmp = 0 then s.offset+1 else s.offset) [] (by simp) (by split_ifs <;> omega)
      (fun h0 h1 h2 => by simp only [h0, if_true]; omega) (fun h => if_neg h)
    exact ⟨_, rfl, by simpa using this⟩
  · rw [if_neg hz]
    exact ⟨_, rfl, by simpa using @NameStep.done pkt s h (by omega)⟩

theorem labelStep_spec (h : pkt[s.idx]? = some c) (hnp : c.toNat < 192) (hpos : 0 < c.toNat) :
    ∃ r, labelStep pkt s c = .ok r ∧ NameStep pkt s r := by
  have h0 : c ≠ 0 := by
    rintro rfl
    exact absurd hpos (by decide)
  rw [labelStep]
  by_cases hfit : pkt.length-(s.idx+1) < c.toNat
  · rw [if_pos hfit]
    exact ⟨_, rfl, stop_stays .enamelen⟩
  rw [if_neg hfit]
  by_cases hroom : s.outLen < c.toNat
  · rw [if_pos hroom]
    exact ⟨_, rfl, stop_stays .eoutlen⟩
  have hin : s.idx+1+c.toNat ≤ pkt.length := by omega
  simp only [if_neg hroom, if_neg h0, pktSlice_of_le hin, bind, Except.bind]
  by_cases hz : s.outLen-c.toNat = 0
  · rw [if_pos hz]
    refine ⟨_, rfl, NameStep.stop .eoutlen _ (slice pkt (s.idx+1) c.toNat) ?_ ?_ ?_
      (fun h => if_neg h)⟩
    · rw [length_slice _ _ _ hin]
      omega
    · split_ifs <;> omega
    · intro h0 h1 h2
      simp only [h0, if_true]
      omega
  rw [if_neg hz]
  by_cases hnext : s.idx+1+c.toNat < pkt.length
  · obtain ⟨next, hn, hread⟩ := pktByte_of_lt pkt (s.idx+1+c.toNat) hnext
    simp only [if_pos hnext, hread]
    have lab := @NameStep.label pkt s c h hpos hnp hin
      (separator next) (fun x hx => by rw [get_inj hn hx])
      (by unfold separator; split_ifs <;> simp) (by omega)
    by_cases hz' : next = 0
    · rw [if_pos hz']
      exact ⟨_, rfl, by simpa [NameScan.copied, separator, hz'] using lab⟩
    · rw [if_neg hz']
      exact ⟨_, rfl, by simpa [NameScan.copied, separator, hz', List.append_assoc] using lab⟩
  · rw [if_neg hnext]
    have lab := @NameStep.label pkt s c h hpos hnp hin []
      (fun x hx => absurd (get_lt hx) hnext) (by simp) (by omega)
    exact ⟨_, rfl, by simpa [NameScan.copied] using lab⟩

end Step

theorem nameStep_spec (pkt : Bytes) (s : NameScan) :
    ∃ r, nameStep pkt s = .ok r ∧ NameStep pkt s r := by
  by_cases hidx : pkt.length ≤ s.idx
  · exact ⟨_, nameStep_end hidx, stop_stays .enonull⟩
  obtain ⟨c, hc, -⟩ := pktByte_of_lt pkt s.idx (by omega)
  rw [nameStep_byte hc]
  by_cases hptr : 192 ≤ c.toNat
  · rw [if_pos hptr]
    exact pointerStep_spec hc hptr
  rw [if_neg hptr]
  rcases Nat.eq_zero_or_pos c.toNat with h0 | hpos
  · obtain rfl : c = 0 := UInt8.toNat_inj.mp h0
    exact rootStep_spec hc
  · exact labelStep_spec hc (by omega) hpos

/-- Jumps are limited and labels move forward, so this weight decreases. -/
def weight (pkt : Bytes) (s : NameScan) : ℕ :=
  (dnsMaxJmp+2-s.njmp)*(pkt.length+1)+(pkt.length-s.idx)

theorem weight_label (pkt : Bytes) (s s' : NameScan) (hj : s'.njmp = s.njmp)
    (hlt : s.idx < s'.idx) (hle : s'.idx ≤ pkt.length) : weight pkt s' < weight pkt s := by
  simp only [weight, hj]
  omega

theorem weight_jump (pkt : Bytes) (s s' : NameScan) (hj : s'.njmp = s.njmp+1)
    (hle : s.njmp ≤ dnsMaxJmp) : weight pkt s' < weight pkt s := by
  have h : dnsMaxJmp+2-s.njmp = (dnsMaxJmp+2-s'.njmp)+1 := by omega
  simp only [weight, h, Nat.succ_mul]
  omega

theorem weight_start (pkt : Bytes) (off nlen : ℕ) :
    weight pkt ⟨off, off, nlen, 0, []⟩ < (dnsMaxJmp+3)*(pkt.length+1) := by
  simp only [weight, dnsMaxJmp]
  omega

/-- What a scan that starts in state `s` returns. -/
structure NameSound (pkt : Bytes) (s : NameScan) (r : NameOut) : Prop where
  offset_ge : s.offset ≤ r.offset
  out_le : r.out.length ≤ s.out.length+s.outLen
  offset_le : s.njmp = 0 → s.offset = s.idx → s.offset ≤ pkt.length → r.offset ≤ pkt.length
  offset_jumped : s.njmp ≠ 0 → r.offset = s.offset
  reads : ∀ n, r.result = .ok n → ∃ j ls text, Reads 191 12 pkt s.idx j ls text ∧
    s.njmp+j ≤ dnsMaxJmp+1 ∧ text.length < s.outLen ∧ r.out = s.out ++ (text ++ [0]) ∧
    n = r.out.length ∧
    (s.njmp = 0 → s.offset = s.idx → ∃ k, skipName pkt k s.idx = some r.offset)

theorem nameLoop_sound (pkt : Bytes) (k : ℕ) (s : NameScan) (hk : weight pkt s < k)
    (hj : s.njmp ≤ dnsMaxJmp+1) : ∃ r, nameLoop pkt k s = .ok r ∧ NameSound pkt s r := by
  induction k generalizing s with
  | zero => omega
  | succ k ih =>
    obtain ⟨o, hstep, ho⟩ := nameStep_spec pkt s
    rw [nameLoop, hstep]
    cases ho with
    | stop ec offset extra hroom hge hin hjmp =>
      refine ⟨_, rfl, hge, ?_, hin, hjmp, ?_⟩
      · simp only [List.length_append]
        omega
      · intro n hn
        cases hn
    | done h hroom =>
      refine ⟨_, rfl, ?_, ?_, ?_, fun h => if_neg h, ?_⟩
      · dsimp only
        split_ifs <;> omega
      · simp only [List.length_append, List.length_singleton]
        omega
      · intro h0 h1 h2
        have := get_lt h
        simp only [h0, if_true]
        omega
      · intro n hn
        cases hn
        refine ⟨0, [], [], .root h, by omega, by simpa using hroom, rfl, by simp, ?_⟩
        intro h0 h1
        exact ⟨1, by simp [skipName, h, h0, h1]⟩
    | jump hi lo h1 hh h2 hjmp hlo hle =>
      have hw := weight_jump pkt s (s.jumped (target hi lo)) rfl hjmp
      obtain ⟨r, hr, hs⟩ := ih (s.jumped (target hi lo)) (by omega)
        (by simp only [NameScan.jumped]; omega)
      have hoff : r.offset = if s.njmp = 0 then s.offset+2 else s.offset :=
        hs.offset_jumped (Nat.succ_ne_zero _)
      have hlt := get_lt h2
      refine ⟨r, hr, ?_, hs.out_le, ?_, ?_, ?_⟩
      · rw [hoff]
        split_ifs <;> omega
      · intro h0 h1 _
        rw [hoff, if_pos h0]
        omega
      · intro h0
        rw [hoff, if_neg h0]
      · intro n hn
        obtain ⟨j, ls, text, hreads, hjn, hroom, hout, hlen, -⟩ := hs.reads n hn
        refine ⟨j+1, ls, text, .pointer hi lo h1 hh h2 hlo hreads, ?_, hroom, hout, hlen, ?_⟩
        · simp only [NameScan.jumped] at hjn
          omega
        · intro h0 hidx
          have hne : hi ≠ 0 := by rintro rfl; simp at hh
          rw [hoff, if_pos h0]
          exact ⟨1, by simp [skipName, h1, hne, hh, hidx, show s.idx+2 ≤ pkt.length by omega]⟩
    | label len h hpos hnp hin sep hsep hone hroom =>
      have hlab := length_slice pkt (s.idx+1) len.toNat hin
      have hw := weight_label pkt s (s.copied pkt len.toNat sep) rfl
        (by simp only [NameScan.copied]; omega) hin
      obtain ⟨r, hr, hs⟩ := ih (s.copied pkt len.toNat sep) (by omega) hj
      have hout := hs.out_le
      have hge := hs.offset_ge
      have hle := hs.offset_le
      have hjumped := hs.offset_jumped
      simp only [NameScan.copied, List.length_append, hlab] at hout hge hle hjumped
      refine ⟨r, hr, ?_, by omega, ?_, ?_, ?_⟩
      · split_ifs at hge <;> omega
      · intro h0 h1 _
        exact hle h0 (by rw [if_pos h0]; omega) (by rw [if_pos h0]; omega)
      · intro h0
        rw [hjumped h0, if_neg h0]
      · intro n hn
        obtain ⟨j, ls, text, hreads, hjn, hroom', hout', hlen, hskip⟩ := hs.reads n hn
        simp only [NameScan.copied] at hroom' hout' hjn hreads hskip
        obtain ⟨next, hnext⟩ : ∃ next, pkt[s.idx+1+len.toNat]? = some next :=
          ⟨_, List.getElem?_eq_getElem hreads.lt⟩
        obtain rfl := hsep next hnext
        refine ⟨j, _, _, .label len next h hpos (by omega) hnp hnext hreads, hjn, ?_, ?_, hlen, ?_⟩
        · simp only [List.length_append, hlab]
          omega
        · rw [hout']
          simp only [List.append_assoc]
        · intro h0 hidx
          obtain ⟨m, hm⟩ := hskip h0 (by rw [if_pos h0]; omega)
          have hne : len ≠ 0 := by rintro rfl; simp at hpos
          exact ⟨m+1, by simp [skipName, h, hne, hm, show ¬ 192 ≤ len.toNat by omega]⟩

theorem pktByte_of_get {pkt : Bytes} {i : ℕ} {c : UInt8} (h : pkt[i]? = some c) :
    pktByte pkt i = .ok c := by
  simp [pktByte, h]

theorem nameStep_root {pkt : Bytes} {s : NameScan} (h : pkt[s.idx]? = some 0)
    (hroom : 0 < s.outLen) :
    nameStep pkt s = .ok (.inr ⟨.ok (s.out.length+1),
      if s.njmp = 0 then s.offset+1 else s.offset, s.out ++ [0]⟩) := by
  have hlt := get_lt h
  simp [nameStep, pktByte_of_get h, bind, Except.bind,
    show ¬ pkt.length ≤ s.idx by omega, show s.outLen ≠ 0 by omega]

theorem nameStep_pointer {pkt : Bytes} {s : NameScan} {hi lo : UInt8}
    (h1 : pkt[s.idx]? = some hi) (hh : 192 ≤ hi.toNat) (h2 : pkt[s.idx+1]? = some lo)
    (hj : s.njmp ≤ dnsMaxJmp) (hlo : 12 ≤ target hi lo) (hle : target hi lo ≤ pkt.length) :
    nameStep pkt s = .ok (.inl (s.jumped (target hi lo))) := by
  have hlt := get_lt h2
  simp only [nameStep, pktByte_of_get h1, pktByte_of_get h2, bind, Except.bind, comp_ptr_iff,
    jump_target, if_neg (show ¬ pkt.length ≤ s.idx by omega), if_pos hh,
    if_neg (show ¬ s.idx+1 = pkt.length by omega), if_neg (show ¬ dnsMaxJmp < s.njmp by omega),
    if_neg (show ¬ target hi lo < 12 by omega), if_neg (show ¬ pkt.length < target hi lo by omega)]
  rfl

theorem nameStep_label {pkt : Bytes} {s : NameScan} {len next : UInt8}
    (h : pkt[s.idx]? = some len) (hpos : 0 < len.toNat) (hnp : len.toNat < 192)
    (hnext : pkt[s.idx+1+len.toNat]? = some next) (hroom : len.toNat < s.outLen) :
    nameStep pkt s = .ok (.inl (s.copied pkt len.toNat (separator next))) := by
  have hlt := get_lt hnext
  have hne : len ≠ 0 := by rintro rfl; simp at hpos
  simp only [nameStep, pktByte_of_get h, pktByte_of_get hnext, bind, Except.bind, comp_ptr_iff,
    pktSlice_of_le (show s.idx+1+len.toNat ≤ pkt.length by omega),
    if_neg (show ¬ pkt.length ≤ s.idx by omega), if_neg (show ¬ 192 ≤ len.toNat by omega),
    if_neg (show ¬ pkt.length-(s.idx+1) < len.toNat by omega),
    if_neg (show ¬ s.outLen < len.toNat by omega), if_neg hne,
    if_neg (show ¬ s.outLen-len.toNat = 0 by omega), if_pos hlt]
  by_cases hz : next = 0 <;> simp [NameScan.copied, separator, hz]

theorem nameLoop_complete {pkt : Bytes} {off j : ℕ} {ls : List Bytes} {text : Bytes}
    (h : Reads 191 12 pkt off j ls text) (k : ℕ) (s : NameScan) (hidx : s.idx = off)
    (hk : weight pkt s < k) (hj : s.njmp+j ≤ dnsMaxJmp+1) (hroom : text.length < s.outLen) :
    ∃ r n, nameLoop pkt k s = .ok r ∧ r.result = .ok n := by
  induction h generalizing k s with
  | root h =>
    subst hidx
    obtain ⟨k, rfl⟩ : ∃ k', k = k'+1 := ⟨k-1, by omega⟩
    rw [nameLoop, nameStep_root h (by simpa using hroom)]
    exact ⟨_, _, rfl, rfl⟩
  | label len next h hpos hle hnp hnext rest ih =>
    subst hidx
    obtain ⟨k, rfl⟩ : ∃ k', k = k'+1 := ⟨k-1, by omega⟩
    have hlt := get_lt hnext
    simp only [List.length_append, length_slice pkt _ _ (Nat.le_of_lt hlt)] at hroom
    have hw := weight_label pkt s (s.copied pkt len.toNat (separator next)) rfl
      (by simp only [NameScan.copied]; omega) (by simp only [NameScan.copied]; omega)
    rw [nameLoop, nameStep_label h hpos hnp hnext (by omega)]
    exact ih k (s.copied pkt len.toNat (separator next)) rfl (by omega) hj
      (by simp only [NameScan.copied]; omega)
  | pointer hi lo h1 hh h2 ht rest ih =>
    subst hidx
    obtain ⟨k, rfl⟩ : ∃ k', k = k'+1 := ⟨k-1, by omega⟩
    have hlt := rest.lt
    have hw := weight_jump pkt s (s.jumped (target hi lo)) rfl (by omega)
    rw [nameLoop, nameStep_pointer h1 hh h2 (by omega) ht (by omega)]
    exact ih k (s.jumped (target hi lo)) rfl (by omega)
      (by simp only [NameScan.jumped]; omega) hroom

/-- The decoder of a name is total and never leaves the packet. Its text
fits the room it was given, whether or not the name is accepted. -/
theorem decodeName_total (pkt : Bytes) (off nlen : ℕ) :
    ∃ r, decodeName pkt off nlen = .ok r ∧ off ≤ r.offset ∧ r.out.length ≤ nlen ∧
      (off ≤ pkt.length → r.offset ≤ pkt.length) := by
  have hw := weight_start pkt off nlen
  obtain ⟨r, hr, hs⟩ := nameLoop_sound pkt _ ⟨off, off, nlen, 0, []⟩ hw (by simp)
  exact ⟨r, hr, hs.offset_ge, by simpa using hs.out_le, hs.offset_le rfl rfl⟩

/-- Acceptance by `decode_name`: a readable name with at most one pointer
more than `DNS_MAX_JMP`, whose text and terminator fit. -/
theorem decodeName_ok_iff (pkt : Bytes) (off nlen n e : ℕ) (out : Bytes) :
    decodeName pkt off nlen = .ok ⟨.ok n, e, out⟩ ↔
      ∃ j ls text, Reads 191 12 pkt off j ls text ∧ j ≤ dnsMaxJmp+1 ∧ text.length < nlen ∧
        out = text ++ [0] ∧ n = text.length+1 ∧ nameEnd pkt off = some e := by
  have hw := weight_start pkt off nlen
  obtain ⟨r, hr, hs⟩ := nameLoop_sound pkt _ ⟨off, off, nlen, 0, []⟩ hw (by simp)
  have sound (n : ℕ) (hn : r.result = .ok n) : ∃ j ls text, Reads 191 12 pkt off j ls text ∧
      j ≤ dnsMaxJmp+1 ∧ text.length < nlen ∧ r.out = text ++ [0] ∧ n = text.length+1 ∧
      nameEnd pkt off = some r.offset := by
    obtain ⟨j, ls, text, hreads, hj, hroom, hout, hlen, hskip⟩ := hs.reads n hn
    obtain ⟨k, hk⟩ := hskip rfl rfl
    refine ⟨j, ls, text, hreads, by simpa using hj, hroom, by simpa using hout, ?_,
      hreads.ends_of_skip hk⟩
    simpa [hout] using hlen
  constructor
  · intro h
    rw [decodeName, hr] at h
    cases h
    exact sound n rfl
  · rintro ⟨j, ls, text, hreads, hj, hroom, rfl, rfl, he⟩
    obtain ⟨r', n, hr', hn⟩ := nameLoop_complete hreads _ ⟨off, off, nlen, 0, []⟩ rfl hw
      (by simpa using hj) hroom
    obtain rfl : r = r' := Except.ok.inj (hr.symm.trans hr')
    obtain ⟨j', ls', text', hreads', -, -, hout, rfl, he'⟩ := sound n hn
    obtain ⟨-, -, rfl⟩ := hreads.unique hreads'
    rw [decodeName, hr]
    obtain ⟨result, offset, out⟩ := r
    simp only at hn hout he'
    rw [hn, hout, Option.some.inj (he.symm.trans he')]

end DnsPkt.NameDecoder
