import DnsPkt.Octets
import DnsPkt.StepMachine

/-!
# A machine for classic BPF

The part of the classic instruction set that filters of packets use: loads of
bytes and of words in network order, the load of the length of an IP header,
tests of the accumulator and the return of the number of bytes to keep. A load
that is not inside the packet ends the program, which then keeps nothing.
-/

set_option autoImplicit false

namespace DnsPkt.CbpfMachine
open DnsPkt.Octets DnsPkt.StepMachine

structure SockFilter where
  code : ℕ
  jt : ℕ
  jf : ℕ
  k : ℕ
  deriving DecidableEq, Repr

inductive Insn where
  | ldAbs (size k : ℕ)
  | ldInd (size k : ℕ)
  | ldxMsh (k : ℕ)
  | jeq (k jt jf : ℕ)
  | jset (k jt jf : ℕ)
  | ret (k : ℕ)
  deriving DecidableEq, Repr

def decode (i : SockFilter) : Option Insn :=
  match i.code with
  | 0x20 => some (.ldAbs 4 i.k)
  | 0x28 => some (.ldAbs 2 i.k)
  | 0x30 => some (.ldAbs 1 i.k)
  | 0x40 => some (.ldInd 4 i.k)
  | 0x48 => some (.ldInd 2 i.k)
  | 0x50 => some (.ldInd 1 i.k)
  | 0xb1 => some (.ldxMsh i.k)
  | 0x15 => some (.jeq i.k i.jt i.jf)
  | 0x45 => some (.jset i.k i.jt i.jf)
  | 0x06 => some (.ret i.k)
  | _ => none

structure State where
  pc : ℕ
  a : ℕ
  x : ℕ
  deriving DecidableEq, Repr

inductive Result where
  | keep (bytes : ℕ)
  | stuck
  deriving DecidableEq, Repr

def bigEndian (b : Bytes) : ℕ := b.foldl (fun v x => v*256+x.toNat) 0

def loadAt (frame : Bytes) (off size : ℕ) : Option ℕ :=
  if off+size ≤ frame.length then some (bigEndian (slice frame off size)) else none

def exec (frame : Bytes) (s : State) : Insn → Turn State Result
  | .ldAbs size k => match loadAt frame k size with
    | some v => .next ⟨s.pc+1, v, s.x⟩
    | none => .done (.keep 0)
  | .ldInd size k => match loadAt frame (s.x+k) size with
    | some v => .next ⟨s.pc+1, v, s.x⟩
    | none => .done (.keep 0)
  | .ldxMsh k => match loadAt frame k 1 with
    | some v => .next ⟨s.pc+1, s.a, 4*(v &&& 0xf)⟩
    | none => .done (.keep 0)
  | .jeq k jt jf => .next { s with pc := s.pc+1+if s.a = k then jt else jf }
  | .jset k jt jf => .next { s with pc := s.pc+1+if s.a &&& k ≠ 0 then jt else jf }
  | .ret k => .done (.keep k)

def step (prog : List SockFilter) (frame : Bytes) (s : State) : Turn State Result :=
  match prog[s.pc]?.bind decode with
  | some i => exec frame s i
  | none => .done .stuck

def run (prog : List SockFilter) (frame : Bytes) : ℕ → State → Result :=
  StepMachine.run (step prog frame) .stuck

def start : State := ⟨0, 0, 0⟩

section Pieces

variable {prog : List SockFilter} {frame : Bytes} {out r : Result} {n : ℕ}

theorem step_eq {s : State} {i : Insn} (h : prog[s.pc]?.bind decode = some i) :
    step prog frame s = exec frame s i := by
  rw [step, h]

theorem ends_ret (s : State) {k : ℕ} (h : prog[s.pc]?.bind decode = some (.ret k)) :
    Ends (step prog frame) out 1 s (.keep k) := ends_done (step_eq h)

theorem ends_loadAt {s : State} {size off : ℕ} {next : ℕ → State}
    (h : step prog frame s = match loadAt frame off size with
      | some v => .next (next v)
      | none => .done (.keep 0))
    (hshort : frame.length < off+size → r = .keep 0)
    (hrest : off+size ≤ frame.length →
      Ends (step prog frame) out n (next (bigEndian (slice frame off size))) r) :
    Ends (step prog frame) out (n+1) s r := by
  rw [loadAt] at h
  by_cases hin : off+size ≤ frame.length
  · rw [if_pos hin] at h
    exact (leads_next h).ends (hrest hin)
  · rw [if_neg hin, ← hshort (by omega)] at h
    exact (ends_done h).more (by omega)

theorem ends_ldAbs (s : State) {size k : ℕ} (h : prog[s.pc]?.bind decode = some (.ldAbs size k))
    (hshort : frame.length < k+size → r = .keep 0)
    (hrest : k+size ≤ frame.length →
      Ends (step prog frame) out n ⟨s.pc+1, bigEndian (slice frame k size), s.x⟩ r) :
    Ends (step prog frame) out (n+1) s r := ends_loadAt (step_eq h) hshort hrest

theorem ends_ldInd (s : State) {size k : ℕ} (h : prog[s.pc]?.bind decode = some (.ldInd size k))
    (hshort : frame.length < s.x+k+size → r = .keep 0)
    (hrest : s.x+k+size ≤ frame.length →
      Ends (step prog frame) out n ⟨s.pc+1, bigEndian (slice frame (s.x+k) size), s.x⟩ r) :
    Ends (step prog frame) out (n+1) s r := ends_loadAt (step_eq h) hshort hrest

theorem ends_ldxMsh (s : State) {k : ℕ} (h : prog[s.pc]?.bind decode = some (.ldxMsh k))
    (hshort : frame.length < k+1 → r = .keep 0)
    (hrest : k+1 ≤ frame.length →
      Ends (step prog frame) out n ⟨s.pc+1, s.a, 4*(bigEndian (slice frame k 1) &&& 0xf)⟩ r) :
    Ends (step prog frame) out (n+1) s r := ends_loadAt (step_eq h) hshort hrest

theorem ends_test {s : State} {p : Prop} [Decidable p] {jt jf : ℕ}
    (h : step prog frame s = .next { s with pc := s.pc+1+if p then jt else jf })
    (hyes : p → Ends (step prog frame) out n { s with pc := s.pc+1+jt } r)
    (hno : ¬ p → Ends (step prog frame) out n { s with pc := s.pc+1+jf } r) :
    Ends (step prog frame) out (n+1) s r := by
  by_cases hp : p
  · rw [if_pos hp] at h
    exact (leads_next h).ends (hyes hp)
  · rw [if_neg hp] at h
    exact (leads_next h).ends (hno hp)

theorem ends_jeq (s : State) {k jt jf : ℕ} (h : prog[s.pc]?.bind decode = some (.jeq k jt jf))
    (hyes : s.a = k → Ends (step prog frame) out n { s with pc := s.pc+1+jt } r)
    (hno : s.a ≠ k → Ends (step prog frame) out n { s with pc := s.pc+1+jf } r) :
    Ends (step prog frame) out (n+1) s r := ends_test (step_eq h) hyes hno

theorem ends_jset (s : State) {k jt jf : ℕ} (h : prog[s.pc]?.bind decode = some (.jset k jt jf))
    (hyes : s.a &&& k ≠ 0 → Ends (step prog frame) out n { s with pc := s.pc+1+jt } r)
    (hno : ¬ s.a &&& k ≠ 0 → Ends (step prog frame) out n { s with pc := s.pc+1+jf } r) :
    Ends (step prog frame) out (n+1) s r := ends_test (step_eq h) hyes hno

end Pieces

end DnsPkt.CbpfMachine
