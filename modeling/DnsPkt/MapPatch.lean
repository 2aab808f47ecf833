import DnsPkt.RedirectFilter
import Mathlib.Logic.Relation

/-!
# The map of the filter

`bpf_patch_map` of `dns_insp.c` puts the descriptor of the socket map into every long
number of a program before it is loaded, and marks the number as a map. But for that
number the instructions run as they did, so a program that gives it to a helper and
uses it for nothing else does what it did, and the helper gets the map.
-/

set_option autoImplicit false

namespace DnsPkt.MapPatch
open DnsPkt.StepMachine DnsPkt.EbpfMachine DnsPkt.RedirectFilter

/-- The low half of a long number with the descriptor, in the register field a mark that
tells it from a plain number. -/
def patchInsn (mapFd : ℤ) (insn : ℕ) : ℕ :=
  let insn := insn ||| 1 <<< 12
  let insn := insn &&& 0x00000000FFFFFFFF
  insn ||| (mapFd % 2^32).toNat <<< 32

/-- The loop, over the words that are left. The second half of a long number is skipped. -/
def bpfPatchMap (mapFd : ℤ) : List ℕ → Bool × List ℕ
  | [] => (false, [])
  | [insn] => if opcode insn ≠ 0x18 then (false, [insn]) else (true, [patchInsn mapFd insn])
  | insn :: half :: rest =>
    if opcode insn ≠ 0x18 then
      let (patched, bpf) := bpfPatchMap mapFd (half :: rest)
      (patched, insn :: bpf)
    else (true, patchInsn mapFd insn :: half :: (bpfPatchMap mapFd rest).2)

/-- The word begins an instruction, or lies behind the program. -/
def isStart : List ℕ → ℕ → Bool
  | insn :: half :: rest, i+1 =>
    if opcode insn ≠ 0x18 then isStart (half :: rest) i
    else match i with
      | 0 => false
      | i+1 => isStart rest i
  | _, _ => true

def fdHalf (mapFd : ℤ) : ℕ := (mapFd % 2^32).toNat

/-- A long number gets the descriptor as its low half. The mark is in a field of its word
that an instruction does not have. -/
def retarget (mapFd : ℤ) : Insn → Insn
  | .lddw dst value => .lddw dst (fdHalf mapFd+2^32*(value/2^32))
  | i => i

section Word

variable (mapFd : ℤ) {w : ℕ}

theorem fdHalf_lt : fdHalf mapFd < 2^32 := by
  have hlt := Int.emod_lt_of_pos mapFd (show (0 : ℤ) < 2^32 by decide)
  have hle := Int.emod_nonneg mapFd (show (2^32 : ℤ) ≠ 0 by decide)
  rw [fdHalf]
  omega

theorem patchInsn_eq (w : ℕ) : patchInsn mapFd w = (w ||| 2^12) % 2^32+fdHalf mapFd*2^32 := by
  have hlow : (w ||| 2^12) % 2^32 < 2^32 := Nat.mod_lt _ (by decide)
  have hand : (w ||| 1 <<< 12) &&& 0x00000000FFFFFFFF = (w ||| 2^12) % 2^32 :=
    Nat.and_two_pow_sub_one_eq_mod _ 32
  rw [patchInsn, hand, Nat.or_comm, ← Nat.shiftLeft_add_eq_or_of_lt hlow, Nat.shiftLeft_eq,
    Nat.add_comm]
  rfl

theorem mark_low (w : ℕ) : (w ||| 2^12) % 2^12 = w % 2^12 := by
  rw [Nat.or_mod_two_pow, Nat.mod_self, Nat.or_zero]

theorem mark_high (w : ℕ) : (w ||| 2^12)/2^12 = w/2^12 ||| 1 := by
  rw [Nat.or_div_two_pow, Nat.div_self (by decide)]

theorem mark_rest (w : ℕ) : (w ||| 2^12)/2^13 = w/2^13 := by
  rw [Nat.or_div_two_pow]
  exact Nat.or_zero _

/-- Of the fields of the word the mark and the number are new. -/
theorem patchInsn_fields (w : ℕ) :
    opcode (patchInsn mapFd w) = opcode w ∧ dstReg (patchInsn mapFd w) = dstReg w ∧
      srcReg (patchInsn mapFd w) = srcReg w ||| 1 ∧ offset (patchInsn mapFd w) = offset w ∧
      number (patchInsn mapFd w) = fdHalf mapFd := by
  have hlow := mark_low w
  have hrest := mark_rest w
  have hfd := fdHalf_lt mapFd
  have hsrc : srcReg (w ||| 2^12) = srcReg w ||| 1 := by
    rw [srcReg, mark_high, show (16 : ℕ) = 2^4 from rfl, Nat.or_mod_two_pow, srcReg]
  rw [patchInsn_eq]
  generalize w ||| 2^12 = x at hlow hrest hsrc
  refine ⟨?_, ?_, ?_, ?_, ?_⟩
  · rw [opcode, opcode]
    omega
  · rw [dstReg, dstReg]
    omega
  · rw [← hsrc, srcReg, srcReg]
    omega
  · have hkeep : x/2^16 = w/2^16 := by omega
    have hword : (x % 2^32+fdHalf mapFd*2^32)/2^16 % 2^16 = x/2^16 % 2^16 := by omega
    rw [offset, offset, hword, hkeep]
  · rw [number]
    omega

/-- The descriptor that is patched last counts. -/
theorem patchInsn_again (other : ℤ) (w : ℕ) :
    patchInsn mapFd (patchInsn other w) = patchInsn mapFd w := by
  have hlow : ((w ||| 2^12) % 2^32+fdHalf other*2^32) % 2^32 = (w ||| 2^12) % 2^32 := by omega
  have hmark : ((w ||| 2^12) % 2^32+fdHalf other*2^32 ||| 2^12) % 2^32 = (w ||| 2^12) % 2^32 := by
    rw [Nat.or_mod_two_pow, hlow, Nat.or_mod_two_pow, Nat.or_assoc, Nat.or_self]
  rw [patchInsn_eq, patchInsn_eq other, hmark, patchInsn_eq]

theorem decode_patched (w next : ℕ) (h : opcode w = 0x18) :
    decode (patchInsn mapFd w) next = (decode w next).map (retarget mapFd) := by
  obtain ⟨hop, hdst, -, -, hnum⟩ := patchInsn_fields mapFd w
  have hw : number w < 2^32 := Nat.mod_lt _ (by decide)
  have hhalf : (number w+2^32*number next)/2^32 = number next := by omega
  rw [decode, decode, hop, h, hdst, hnum]
  change _ = some (Insn.lddw (dstReg w) (fdHalf mapFd+2^32*((number w+2^32*number next)/2^32)))
  rw [hhalf]
  rfl

/-- What is behind a word that loads no long number does not matter. -/
theorem decode_other (next next' : ℕ) (h : opcode w ≠ 0x18) :
    decode w next = (decode w next').map (retarget mapFd) := by
  rw [decode, decode]
  split
  · contradiction
  all_goals try rfl
  split_ifs <;> simp [Option.map_map, Function.comp_def, retarget]

end Word

section Program

variable (mapFd : ℤ) {insn half i : ℕ} {rest : List ℕ}

theorem start_zero : ∀ bpf : List ℕ, isStart bpf 0 = true
  | [] => rfl
  | [_] => rfl
  | _ :: _ :: _ => rfl

theorem start_behind_plain (h : opcode insn ≠ 0x18) :
    isStart (insn :: half :: rest) (i+1) = isStart (half :: rest) i := if_pos h

theorem start_half (h : opcode insn = 0x18) : isStart (insn :: half :: rest) 1 = false :=
  if_neg (not_not.mpr h)

theorem start_behind_long (h : opcode insn = 0x18) :
    isStart (insn :: half :: rest) (i+2) = isStart rest i := if_neg (not_not.mpr h)

def IsLong (bpf : List ℕ) (i w : ℕ) : Prop := isStart bpf i = true ∧ opcode w = 0x18

instance (bpf : List ℕ) (i w : ℕ) : Decidable (IsLong bpf i w) :=
  inferInstanceAs (Decidable (_ ∧ _))

theorem long_behind_plain {w : ℕ} (h : opcode insn ≠ 0x18) :
    IsLong (insn :: half :: rest) (i+1) w ↔ IsLong (half :: rest) i w := by
  rw [IsLong, IsLong, start_behind_plain h]

theorem long_behind_long {w : ℕ} (h : opcode insn = 0x18) :
    IsLong (insn :: half :: rest) (i+2) w ↔ IsLong rest i w := by
  rw [IsLong, IsLong, start_behind_long h]

/-- Just the words with which long numbers begin are changed. -/
theorem words_patched (bpf : List ℕ) (i : ℕ) : (bpfPatchMap mapFd bpf).2[i]? =
    bpf[i]?.map fun w => if IsLong bpf i w then patchInsn mapFd w else w := by
  fun_induction bpfPatchMap mapFd bpf generalizing i with
  | case1 => rfl
  | case2 insn hop =>
    cases i with
    | zero => exact congrArg some (if_neg fun h => hop h.2).symm
    | succ i => rfl
  | case3 insn hop =>
    cases i with
    | zero => exact congrArg some (if_pos ⟨rfl, not_not.mp hop⟩).symm
    | succ i => rfl
  | case4 insn half rest hop patched bpf heq ih =>
    rw [heq] at ih
    cases i with
    | zero => exact congrArg some (if_neg fun h => hop h.2).symm
    | succ i =>
      rw [List.getElem?_cons_succ, List.getElem?_cons_succ, ih i]
      simp only [long_behind_plain hop]
  | case5 insn half rest hop ih =>
    have hlong := not_not.mp hop
    match i with
    | 0 => exact congrArg some (if_pos ⟨rfl, hlong⟩).symm
    | 1 => exact congrArg some (if_neg fun h => absurd ((start_half hlong).symm.trans h.1)
        (by decide)).symm
    | i+2 =>
      rw [List.getElem?_cons_succ, List.getElem?_cons_succ, List.getElem?_cons_succ,
        List.getElem?_cons_succ, ih i]
      simp only [long_behind_long hlong]

theorem length_patched (bpf : List ℕ) : (bpfPatchMap mapFd bpf).2.length = bpf.length := by
  fun_induction bpfPatchMap mapFd bpf with
  | case1 => rfl
  | case2 => rfl
  | case3 => rfl
  | case4 insn half rest h patched bpf heq ih => simpa [heq] using ih
  | case5 insn half rest h ih => simpa using ih

/-- The program is told to be patched exactly if it has a long number. -/
theorem patched_iff (bpf : List ℕ) : (bpfPatchMap mapFd bpf).1 = true ↔
    ∃ i w, bpf[i]? = some w ∧ IsLong bpf i w := by
  fun_induction bpfPatchMap mapFd bpf with
  | case1 => simp
  | case2 insn hop =>
    refine iff_of_false Bool.false_ne_true ?_
    rintro ⟨i, w, hw, -, hlong⟩
    obtain rfl := List.mem_singleton.mp (List.mem_of_getElem? hw)
    exact hop hlong
  | case3 insn hop => exact iff_of_true rfl ⟨0, insn, rfl, rfl, not_not.mp hop⟩
  | case4 insn half rest hop patched bpf heq ih =>
    rw [heq] at ih
    refine ih.trans ⟨?_, ?_⟩
    · rintro ⟨i, w, hw, hstart, hlong⟩
      exact ⟨i+1, w, hw, (start_behind_plain hop).trans hstart, hlong⟩
    · rintro ⟨i, w, hw, hstart, hlong⟩
      cases i with
      | zero => exact absurd (Option.some.inj hw ▸ hlong) hop
      | succ i => exact ⟨i, w, hw, (start_behind_plain hop).symm.trans hstart, hlong⟩
  | case5 insn half rest hop ih => exact iff_of_true rfl ⟨0, insn, rfl, rfl, not_not.mp hop⟩

/-- Reading the front of a program, the instructions of a patched one begin where they did. -/
theorem start_patched (bpf : List ℕ) (i : ℕ) :
    isStart (bpfPatchMap mapFd bpf).2 i = isStart bpf i := by
  fun_induction bpfPatchMap mapFd bpf generalizing i with
  | case1 => rfl
  | case2 => rfl
  | case3 => rfl
  | case4 insn half rest hop patched bpf heq ih =>
    rw [heq] at ih
    have hlen : bpf.length = rest.length+1 := by
      have hlen := length_patched mapFd (half :: rest)
      rwa [heq] at hlen
    obtain ⟨half', rest', rfl⟩ := List.exists_cons_of_length_eq_add_one hlen
    cases i with
    | zero => rfl
    | succ i => exact (start_behind_plain hop).trans ((ih i).trans (start_behind_plain hop).symm)
  | case5 insn half rest hop ih =>
    have hlong := not_not.mp hop
    have hlong' := (patchInsn_fields mapFd insn).1.trans hlong
    match i with
    | 0 => rfl
    | 1 => exact (start_half hlong').trans (start_half hlong).symm
    | i+2 =>
      exact (start_behind_long hlong').trans ((ih i).trans (start_behind_long hlong).symm)

/-- The map that is patched last counts. -/
theorem patched_again (other : ℤ) (bpf : List ℕ) :
    (bpfPatchMap mapFd (bpfPatchMap other bpf).2).2 = (bpfPatchMap mapFd bpf).2 := by
  refine List.ext_getElem? fun i => ?_
  rw [words_patched, words_patched, words_patched, Option.map_map]
  congr 1
  funext w
  rw [Function.comp_apply]
  by_cases h : IsLong bpf i w
  · have hlong : IsLong (bpfPatchMap other bpf).2 i (patchInsn other w) :=
      ⟨(start_patched other bpf i).trans h.1, (patchInsn_fields other w).1.trans h.2⟩
    rw [if_pos h, if_pos h, if_pos hlong, patchInsn_again]
  · have hlong : ¬IsLong (bpfPatchMap other bpf).2 i w := fun hl =>
      h ⟨(start_patched other bpf i).symm.trans hl.1, hl.2⟩
    rw [if_neg h, if_neg h, if_neg hlong]

/-- The instructions of the program are kept, long numbers up to their low half. -/
theorem fetch_patched (bpf : List ℕ) (i : ℕ) (h : isStart bpf i = true) :
    fetch (bpfPatchMap mapFd bpf).2 i = (fetch bpf i).map (retarget mapFd) := by
  fun_induction bpfPatchMap mapFd bpf generalizing i with
  | case1 => rfl
  | case2 insn hop =>
    cases i with
    | zero => exact decode_other mapFd _ _ hop
    | succ i => rfl
  | case3 insn hop =>
    cases i with
    | zero => exact decode_patched mapFd _ _ (not_not.mp hop)
    | succ i => rfl
  | case4 insn half rest hop patched bpf heq ih =>
    rw [heq] at ih
    cases i with
    | zero => exact decode_other mapFd _ _ hop
    | succ i => exact ih i ((start_behind_plain hop).symm.trans h)
  | case5 insn half rest hop ih =>
    have hlong := not_not.mp hop
    match i with
    | 0 => exact decode_patched mapFd _ _ hlong
    | 1 => cases (start_half hlong).symm.trans h
    | i+2 => exact ih i ((start_behind_long hlong).symm.trans h)

end Program

def targets (pc : ℕ) : Insn → List ℕ
  | .lddw _ _ => [pc+2]
  | .jmp _ _ _ _ off => [((pc : ℤ)+1+off).toNat, pc+1]
  | .ja off => [((pc : ℤ)+1+off).toNat]
  | .exit => []
  | _ => [pc+1]

def isCall : Insn → Bool
  | .call _ => true
  | _ => false

def callAt (bpf : List ℕ) (pc : ℕ) : Bool := (fetch bpf pc).any isCall

/-- A long number goes to the first argument of a helper, and a helper is called with no
other one. -/
def wellUsed (bpf : List ℕ) (pc : ℕ) : Insn → Bool
  | .lddw dst value => dst = 1 && value < 2^32 && isStart bpf (pc+2) && callAt bpf (pc+2)
  | i => (targets pc i).all fun j => isStart bpf j && !callAt bpf j

structure MapProgram (bpf : List ℕ) : Prop where
  used : ∀ pc < bpf.length, isStart bpf pc = true → (fetch bpf pc).all (wellUsed bpf pc) = true
  first : callAt bpf 0 = false

section Runs

variable {bpf : List ℕ} {env : Env} {mapFd : ℤ} {s t u : State} {i : Insn}

/-- A turn leads to one of the targets and keeps the registers there. -/
theorem exec_leads (h : exec env s i = .next t) (hsize : 1 < s.regs.length) :
    t.pc ∈ targets s.pc i ∧ 1 < t.regs.length := by
  have hset (r : ℕ) (v : Val) : 1 < (s.set r v).regs.length := by
    rw [State.set, List.length_set]
    exact hsize
  cases i with
  | alu op dst src =>
    rw [exec] at h
    split at h
    · cases h
      exact ⟨List.mem_singleton_self _, hset _ _⟩
    · cases h
  | ldx size dst src off =>
    rw [exec] at h
    split at h
    · cases h
      exact ⟨List.mem_singleton_self _, hset _ _⟩
    · cases h
  | lddw dst value =>
    cases h
    exact ⟨List.mem_singleton_self _, hset _ _⟩
  | jmp cond wide dst src off =>
    rw [exec] at h
    split at h
    · cases h
      exact ⟨List.mem_cons_self, hsize⟩
    · cases h
      exact ⟨List.mem_cons_of_mem _ (List.mem_singleton_self _), hsize⟩
    · cases h
  | ja off =>
    cases h
    exact ⟨List.mem_singleton_self _, hsize⟩
  | call helper =>
    cases h
    exact ⟨List.mem_singleton_self _, by simp⟩
  | exit => cases h

/-- The states of the program and of the patched one differ in the argument that the next
call gets. -/
structure Alike (bpf : List ℕ) (mapFd : ℤ) (s t : State) : Prop where
  pc : t.pc = s.pc
  start : isStart bpf s.pc = true
  calls : t.calls = s.calls
  size : 1 < s.regs.length
  regs : t.regs = if callAt bpf s.pc then s.regs.set 1 (.num (fdHalf mapFd)) else s.regs

theorem MapProgram.at (h : MapProgram bpf) {pc : ℕ} (hstart : isStart bpf pc = true)
    (hi : fetch bpf pc = some i) : wellUsed bpf pc i = true := by
  have hlen : pc < bpf.length := by
    by_contra hlong
    rw [fetch, List.getElem?_eq_none (Nat.le_of_not_lt hlong)] at hi
    cases hi
  have hused := h.used pc hlen hstart
  rwa [hi] at hused

theorem callAt_fetch (h : fetch bpf s.pc = some i) : callAt bpf s.pc = isCall i := by
  rw [callAt, h, Option.any_some]

/-- One turn of both programs. -/
theorem Alike.step (h : Alike bpf mapFd s t) (hbpf : MapProgram bpf)
    (hnext : EbpfMachine.step bpf env s = .next u) :
    ∃ v, EbpfMachine.step (bpfPatchMap mapFd bpf).2 env t = .next v ∧ Alike bpf mapFd u v := by
  obtain ⟨tpc, tregs, tcalls⟩ := t
  obtain ⟨rfl, hstart, rfl, hsize, rfl⟩ := h
  have hfetch := fetch_patched mapFd bpf s.pc hstart
  rw [EbpfMachine.step] at hnext ⊢
  dsimp only
  rw [hfetch]
  cases hi : fetch bpf s.pc with
  | none =>
    rw [hi] at hnext
    cases hnext
  | some i =>
    rw [hi] at hnext
    obtain ⟨htarget, hsize'⟩ := exec_leads hnext hsize
    have hused := hbpf.at hstart hi
    have hcall := callAt_fetch hi
    -- Everything but a long number leads to where no helper is called.
    have hlands (h : wellUsed bpf s.pc i =
        (targets s.pc i).all fun j => isStart bpf j && !callAt bpf j) :
        isStart bpf u.pc = true ∧ callAt bpf u.pc = false := by
      rw [h, List.all_eq_true] at hused
      simpa using hused _ htarget
    have hplain (hkeep : retarget mapFd i = i) (hno : isCall i = false)
        (h : wellUsed bpf s.pc i =
          (targets s.pc i).all fun j => isStart bpf j && !callAt bpf j) :
        ∃ v, exec env ⟨s.pc, if isCall i then s.regs.set 1 (.num (fdHalf mapFd)) else s.regs,
          s.calls⟩ (retarget mapFd i) = .next v ∧ Alike bpf mapFd u v := by
      obtain ⟨hstart', hcall'⟩ := hlands h
      rw [hkeep, hno]
      exact ⟨u, hnext, rfl, hstart', rfl, hsize', by rw [hcall']; rfl⟩
    rw [hcall]
    cases i with
    | lddw dst value =>
      cases hnext
      simp only [wellUsed, Bool.and_eq_true, decide_eq_true_eq] at hused
      obtain ⟨⟨⟨rfl, hvalue⟩, hstart'⟩, hcall'⟩ := hused
      have hzero : fdHalf mapFd+2^32*(value/2^32) = fdHalf mapFd := by omega
      refine ⟨_, rfl, rfl, hstart', rfl, hsize', ?_⟩
      rw [if_pos hcall']
      change s.regs.set 1 (.num (fdHalf mapFd+2^32*(value/2^32))) =
        (s.regs.set 1 (.num value)).set 1 (.num (fdHalf mapFd))
      rw [List.set_set, hzero]
    | call helper =>
      obtain ⟨hstart', hcall'⟩ := hlands rfl
      cases hnext
      have hreg (r : ℕ) (hr : 1 ≠ r) (x : Val) :
          (s.regs.set 1 x).getD r .undef = s.regs.getD r .undef := by
        rw [List.getD_eq_getElem?_getD, List.getElem?_set_ne hr, List.getD_eq_getElem?_getD]
      refine ⟨_, rfl, rfl, hstart', ?_, hsize', ?_⟩
      · exact congrArg₂ (fun a b => s.calls ++ [HelperCall.mk helper a b])
          (hreg 2 (by decide) _) (hreg 3 (by decide) _)
      · refine Eq.trans ?_ (if_neg (by rw [hcall']; exact Bool.false_ne_true)).symm
        exact congrArg (fun l => Val.num env.ret :: (List.replicate 5 Val.undef ++ l))
          (List.drop_set_of_lt (show 1 < 6 by decide))
    | _ => exact hplain rfl rfl rfl

/-- Both programs end alike. -/
theorem Alike.ends (h : Alike bpf mapFd s t) {r : Result}
    (hdone : EbpfMachine.step bpf env s = .done r) :
    EbpfMachine.step (bpfPatchMap mapFd bpf).2 env t = .done r := by
  obtain ⟨tpc, tregs, tcalls⟩ := t
  obtain ⟨rfl, hstart, rfl, -, rfl⟩ := h
  have hfetch := fetch_patched mapFd bpf s.pc hstart
  rw [EbpfMachine.step] at hdone ⊢
  dsimp only
  rw [hfetch]
  cases hi : fetch bpf s.pc with
  | none =>
    rw [hi] at hdone
    exact hdone
  | some i =>
    rw [hi] at hdone
    rw [callAt_fetch hi]
    cases i with
    | lddw dst value => cases hdone
    | call helper => cases hdone
    | _ => exact hdone

theorem alike_start (hbpf : MapProgram bpf) : Alike bpf mapFd start start := by
  have hno : ¬callAt bpf start.pc = true := by
    rw [show start.pc = 0 from rfl, hbpf.first]
    exact Bool.false_ne_true
  exact ⟨rfl, start_zero bpf, rfl, by decide, (if_neg hno).symm⟩

/-- A program that only gives its map to helpers does what it did before it was patched. -/
theorem patched_run (hbpf : MapProgram bpf) (mapFd : ℤ) (env : Env) (n : ℕ) :
    EbpfMachine.run (bpfPatchMap mapFd bpf).2 env n start = EbpfMachine.run bpf env n start :=
  run_related (fun _ _ _ h => h.step hbpf) (fun _ _ _ h => h.ends) (alike_start hbpf)

def Reaches (bpf : List ℕ) (env : Env) : State → Prop :=
  Relation.ReflTransGen (fun s t => EbpfMachine.step bpf env s = .next t) start

/-- Every helper of the patched program is called with the map. -/
theorem patched_call (hbpf : MapProgram bpf) (ht : Reaches (bpfPatchMap mapFd bpf).2 env t)
    {helper : ℕ} (hcall : fetch (bpfPatchMap mapFd bpf).2 t.pc = some (.call helper)) :
    t.reg 1 = .num (fdHalf mapFd) := by
  have halike : ∃ s, Alike bpf mapFd s t := by
    clear hcall
    induction ht with
    | refl => exact ⟨start, alike_start hbpf⟩
    | tail _ hstep ih =>
      obtain ⟨s, hs⟩ := ih
      cases hnext : EbpfMachine.step bpf env s with
      | next u =>
        obtain ⟨v, hv, hrel⟩ := hs.step hbpf hnext
        cases hstep.symm.trans hv
        exact ⟨u, hrel⟩
      | done r => cases hstep.symm.trans (hs.ends hnext)
  obtain ⟨s, hs⟩ := halike
  have hfetch := fetch_patched mapFd bpf s.pc hs.start
  rw [← hs.pc, hcall, hs.pc] at hfetch
  obtain ⟨i, hi, hret⟩ := Option.map_eq_some_iff.mp hfetch.symm
  have hat : callAt bpf s.pc = true := by
    rw [callAt_fetch hi]
    cases i with
    | call h => rfl
    | _ => cases hret
  rw [State.reg, hs.regs, if_pos hat, List.getD_eq_getElem?_getD,
    List.getElem?_set_self hs.size, Option.getD_some]

end Runs

/-- What `bpf_patch_map` does to any program: it changes the words with which long numbers
begin and no others, and says whether there are any. Such a word gets the descriptor as its
number and the mark of a map in its source register, and keeps the rest; the instructions
are what they were but for the low half of a long number. A second map replaces the first. -/
theorem patch_map (mapFd : ℤ) (bpf : List ℕ) :
    (∀ i, (bpfPatchMap mapFd bpf).2[i]? =
      bpf[i]?.map fun w => if IsLong bpf i w then patchInsn mapFd w else w) ∧
    (∀ i w, bpf[i]? = some w → IsLong bpf i w → ∃ v, (bpfPatchMap mapFd bpf).2[i]? = some v ∧
      opcode v = opcode w ∧ dstReg v = dstReg w ∧ srcReg v = srcReg w ||| 1 ∧
      offset v = offset w ∧ number v = fdHalf mapFd) ∧
    ((bpfPatchMap mapFd bpf).1 = true ↔ ∃ i w, bpf[i]? = some w ∧ IsLong bpf i w) ∧
    (∀ i, isStart bpf i = true →
      fetch (bpfPatchMap mapFd bpf).2 i = (fetch bpf i).map (retarget mapFd)) ∧
    ∀ other, (bpfPatchMap other (bpfPatchMap mapFd bpf).2).2 = (bpfPatchMap other bpf).2 := by
  refine ⟨words_patched mapFd bpf, fun i w hw hlong => ?_, patched_iff mapFd bpf,
    fetch_patched mapFd bpf, fun other => patched_again other mapFd bpf⟩
  refine ⟨patchInsn mapFd w, ?_, patchInsn_fields mapFd w⟩
  rw [words_patched, hw, Option.map_some, if_pos hlong]

theorem filter_uses_map : MapProgram bpfFilter := ⟨by decide, by decide⟩

/-- The filter that is loaded redirects the same frames as the one in the source, and passes
the map to the helper that redirects them. -/
theorem filter_patched (mapFd : ℤ) (env : Env) :
    (bpfPatchMap mapFd bpfFilter).1 = true ∧
    (∀ n, 40 ≤ n → EbpfMachine.run (bpfPatchMap mapFd bpfFilter).2 env n start =
      if redirects env.frame then redirected env else dropped) ∧
    ∀ s helper, Reaches (bpfPatchMap mapFd bpfFilter).2 env s →
      fetch (bpfPatchMap mapFd bpfFilter).2 s.pc = some (.call helper) →
      s.reg 1 = .num (fdHalf mapFd) := by
  refine ⟨(patched_iff mapFd bpfFilter).mpr ⟨35, 0x118, rfl, by decide⟩, fun n hn => ?_, ?_⟩
  · rw [patched_run filter_uses_map]
    exact filter_ends env n hn
  · exact fun s helper hs hcall => patched_call filter_uses_map hs hcall

theorem dnsFrame_patched :
    EbpfMachine.run (bpfPatchMap 7 bpfFilter).2 ⟨dnsFrame, 0, 4⟩ 40 start =
      .halt (.num 4) [⟨51, .num 0, .num 1⟩] := by
  rw [(filter_patched 7 ⟨dnsFrame, 0, 4⟩).2.1 40 (Nat.le_refl 40), if_pos (by decide)]
  decide

end DnsPkt.MapPatch
