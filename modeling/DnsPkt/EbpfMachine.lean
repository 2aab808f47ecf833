import DnsPkt.ByteOrder
import DnsPkt.StepMachine

/-!
# A machine for extended BPF

The part of the instruction set that a filter of packets needs, on a
little-endian host. A value is a number of 64 bits or a pointer into the
context or the packet, that is an offset from its start. A load that is not
inside the packet is a fault, as is an operation that gives no meaning to a
pointer. A helper is only recorded: what it returns is given from outside.
-/

set_option autoImplicit false

namespace DnsPkt.EbpfMachine
open DnsPkt.Octets DnsPkt.ByteOrder DnsPkt.StepMachine

inductive AluOp where
  | add | or | and | lsh | arsh | mov
  deriving DecidableEq, Repr

inductive Cond where
  | jeq | jgt | jge | jne | jlt | jle
  deriving DecidableEq, Repr

inductive Operand where
  | reg (index : ℕ)
  | imm (value : ℕ)
  deriving DecidableEq, Repr

inductive Insn where
  | alu (op : AluOp) (dst : ℕ) (src : Operand)
  | ldx (size dst src : ℕ) (off : ℤ)
  | lddw (dst value : ℕ)
  | jmp (cond : Cond) (wide : Bool) (dst : ℕ) (src : Operand) (off : ℤ)
  | ja (off : ℤ)
  | call (helper : ℕ)
  | exit
  deriving DecidableEq, Repr

def opcode (w : ℕ) : ℕ := w % 256

def dstReg (w : ℕ) : ℕ := w/2^8 % 16

def srcReg (w : ℕ) : ℕ := w/2^12 % 16

def offset (w : ℕ) : ℤ :=
  let v : ℕ := w/2^16 % 2^16
  if v < 2^15 then v else v-2^16

def number (w : ℕ) : ℕ := w/2^32 % 2^32

def signed (v : ℕ) : ℕ := if v < 2^31 then v else v+(2^64-2^32)

def aluOp (code : ℕ) : Option AluOp :=
  match code with
  | 0x0 => some .add
  | 0x4 => some .or
  | 0x5 => some .and
  | 0x6 => some .lsh
  | 0xb => some .mov
  | 0xc => some .arsh
  | _ => none

def jmpCond (code : ℕ) : Option Cond :=
  match code with
  | 0x1 => some .jeq
  | 0x2 => some .jgt
  | 0x3 => some .jge
  | 0x5 => some .jne
  | 0xa => some .jlt
  | 0xb => some .jle
  | _ => none

def operand (w : ℕ) : Operand :=
  if opcode w/8 % 2 = 1 then .reg (srcReg w) else .imm (signed (number w))

/-- The instruction of a word; one that loads a long number has the high half
of it in the word behind. Whether its source register marks the number as a map
is left to the kernel. -/
def decode (w next : ℕ) : Option Insn :=
  match opcode w with
  | 0x18 => some (.lddw (dstReg w) (number w+2^32*number next))
  | 0x61 => some (.ldx 4 (dstReg w) (srcReg w) (offset w))
  | 0x69 => some (.ldx 2 (dstReg w) (srcReg w) (offset w))
  | 0x71 => some (.ldx 1 (dstReg w) (srcReg w) (offset w))
  | 0x79 => some (.ldx 8 (dstReg w) (srcReg w) (offset w))
  | 0x05 => some (.ja (offset w))
  | 0x85 => some (.call (number w))
  | 0x95 => some .exit
  | op =>
    if op % 8 = 7 then (aluOp (op/16)).map fun a => .alu a (dstReg w) (operand w)
    else if op % 8 = 5 then
      (jmpCond (op/16)).map fun c => .jmp c true (dstReg w) (operand w) (offset w)
    else if op % 8 = 6 then
      (jmpCond (op/16)).map fun c => .jmp c false (dstReg w) (operand w) (offset w)
    else none

def fetch (prog : List ℕ) (pc : ℕ) : Option Insn :=
  prog[pc]?.bind fun w => decode w (prog.getD (pc+1) 0)

inductive Val where
  | undef
  | num (n : ℕ)
  | ctx (off : ℕ)
  | pkt (off : ℕ)
  deriving DecidableEq, Repr

inductive Trap where
  | load (off : ℤ)
  | operand
  | fetch (pc : ℕ)
  | rounds
  deriving DecidableEq, Repr

/-- The packet that the context points to, the receive queue it came from and
what a helper returns. -/
structure Env where
  frame : Bytes
  rxQueue : ℕ
  ret : ℕ

structure HelperCall where
  helper : ℕ
  arg2 : Val
  arg3 : Val
  deriving DecidableEq, Repr

structure State where
  pc : ℕ
  regs : List Val
  calls : List HelperCall
  deriving DecidableEq, Repr

def State.reg (s : State) (r : ℕ) : Val := s.regs.getD r .undef

def State.operand (s : State) : Operand → Val
  | .reg r => s.reg r
  | .imm v => .num v

def State.set (s : State) (r : ℕ) (v : Val) : State := ⟨s.pc+1, s.regs.set r v, s.calls⟩

def State.jump (s : State) (off : ℤ) : State := { s with pc := ((s.pc : ℤ)+1+off).toNat }

def aluNum (op : AluOp) (a b : ℕ) : ℕ :=
  match op with
  | .add => (a+b) % 2^64
  | .or => a ||| b
  | .and => a &&& b
  | .lsh => a <<< (b % 64) % 2^64
  | .arsh => ((BitVec.ofNat 64 a).sshiftRight (b % 64)).toNat
  | .mov => b

def aluVal (op : AluOp) (a b : Val) : Option Val :=
  match op, a, b with
  | .mov, _, b => some b
  | .add, .pkt off, .num n => some (.pkt (off+n))
  | op, .num a, .num b => some (.num (aluNum op a b))
  | _, _, _ => none

def testNum (cond : Cond) (a b : ℕ) : Bool :=
  match cond with
  | .jeq => a = b
  | .jgt => b < a
  | .jge => b ≤ a
  | .jne => a ≠ b
  | .jlt => a < b
  | .jle => a ≤ b

def testVal (cond : Cond) (wide : Bool) (a b : Val) : Option Bool :=
  match a, b with
  | .num a, .num b =>
    some (if wide then testNum cond a b else testNum cond (a % 2^32) (b % 2^32))
  | .pkt a, .pkt b => if wide then some (testNum cond a b) else none
  | _, _ => none

/-- A load through a pointer: of the three words of the context that are
known, or of bytes of the packet. -/
def loadVal (env : Env) (size : ℕ) (p : Val) (off : ℤ) : Except Trap Val :=
  match p with
  | .pkt base =>
    let addr := (base : ℤ)+off
    if 0 ≤ addr ∧ addr+size ≤ env.frame.length then
      .ok (.num (load (slice env.frame addr.toNat size)))
    else .error (.load addr)
  | .ctx base =>
    if size = 4 ∧ (base : ℤ)+off = 0 then .ok (.pkt 0)
    else if size = 4 ∧ (base : ℤ)+off = 4 then .ok (.pkt env.frame.length)
    else if size = 4 ∧ (base : ℤ)+off = 16 then .ok (.num env.rxQueue)
    else .error .operand
  | _ => .error .operand

inductive Result where
  | halt (value : Val) (calls : List HelperCall)
  | trap (cause : Trap)
  deriving DecidableEq, Repr

def exec (env : Env) (s : State) : Insn → Turn State Result
  | .alu op dst src => match aluVal op (s.reg dst) (s.operand src) with
    | some v => .next (s.set dst v)
    | none => .done (.trap .operand)
  | .ldx size dst src off => match loadVal env size (s.reg src) off with
    | .ok v => .next (s.set dst v)
    | .error c => .done (.trap c)
  | .lddw dst v => .next { s.set dst (.num v) with pc := s.pc+2 }
  | .jmp cond wide dst src off => match testVal cond wide (s.reg dst) (s.operand src) with
    | some true => .next (s.jump off)
    | some false => .next (s.jump 0)
    | none => .done (.trap .operand)
  | .ja off => .next (s.jump off)
  | .call h => .next ⟨s.pc+1,
      .num env.ret :: (List.replicate 5 .undef ++ s.regs.drop 6),
      s.calls ++ [⟨h, s.reg 2, s.reg 3⟩]⟩
  | .exit => .done (.halt (s.reg 0) s.calls)

def step (prog : List ℕ) (env : Env) (s : State) : Turn State Result :=
  match fetch prog s.pc with
  | some i => exec env s i
  | none => .done (.trap (.fetch s.pc))

def run (prog : List ℕ) (env : Env) : ℕ → State → Result :=
  StepMachine.run (step prog env) (.trap .rounds)

def start : State := ⟨0, .undef :: .ctx 0 :: List.replicate 9 .undef, []⟩

section Pieces

variable {prog : List ℕ} {env : Env} {i : Insn} {out r : Result} {n : ℕ}

theorem step_eq {s : State} (h : fetch prog s.pc = some i) : step prog env s = exec env s i := by
  rw [step, h]

/-- A load from inside the packet. -/
theorem ends_load (s : State) (off : ℕ) {size dst src base : ℕ}
    (h : fetch prog s.pc = some (.ldx size dst src off)) (hsrc : s.reg src = .pkt base)
    (hin : base+off+size ≤ env.frame.length)
    (hrest : Ends (step prog env) out n
      (s.set dst (.num (load (slice env.frame (base+off) size)))) r) :
    Ends (step prog env) out (n+1) s r := by
  refine (leads_next ?_).ends hrest
  have haddr : ((base : ℤ)+(off : ℤ)).toNat = base+off := by omega
  rw [step_eq h, exec, hsrc, loadVal, if_pos (by omega), haddr]

/-- A branch on two values that compare. -/
theorem ends_jmp (s : State) (p : Prop) [Decidable p] {cond : Cond} {wide : Bool} {dst : ℕ}
    {src : Operand} {off : ℤ} (h : fetch prog s.pc = some (.jmp cond wide dst src off))
    (htest : testVal cond wide (s.reg dst) (s.operand src) = some (decide p))
    (hyes : p → Ends (step prog env) out n (s.jump off) r)
    (hno : ¬ p → Ends (step prog env) out n (s.jump 0) r) :
    Ends (step prog env) out (n+1) s r := by
  have hstep : step prog env s = exec env s (.jmp cond wide dst src off) := step_eq h
  rw [exec, htest] at hstep
  by_cases hp : p
  · rw [decide_eq_true hp] at hstep
    exact (leads_next hstep).ends (hyes hp)
  · rw [decide_eq_false hp] at hstep
    exact (leads_next hstep).ends (hno hp)

end Pieces

end DnsPkt.EbpfMachine
