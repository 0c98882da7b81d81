import Rue.Codegen.Aarch64.Mir
import Rue.Proofs.Machine

/-! An AArch64 machine, and the same machine watching the carry: what a compare
with zero leaves there is lost when the compare becomes a test. -/

namespace Rue.Proofs.Aarch64
open Rue.Codegen Rue.Codegen.Aarch64 Peephole Rue.Lib.Program

structure Flags where
  n : Bool
  z : Bool
  c : Bool
  v : Bool
  deriving DecidableEq, Repr

abbrev zero : Operand Reg := .physical .xzr

/-- The zero register reads as zero and drops what is written to it. -/
def read (regs : Operand Reg → BitVec 64) (src : Operand Reg) : BitVec 64 := if src = zero then 0 else regs src

def write (regs : Operand Reg → BitVec 64) (dst : Operand Reg) (value : BitVec 64) : Operand Reg → BitVec 64 :=
  if dst = zero then regs else Function.update regs dst value

namespace Flags

/-- Subtraction sets the carry when it does not borrow. -/
def sub (a b : BitVec 64) : Flags :=
  let difference := a - b
  ⟨difference.msb, difference = 0, b.toNat ≤ a.toNat, a.msb ≠ b.msb ∧ difference.msb ≠ a.msb⟩

def logic (result : BitVec 64) : Flags := ⟨result.msb, result = 0, false, false⟩

def holds (flags : Flags) : Cond → Bool
  | .eq => flags.z
  | .ne => !flags.z
  | .lt => flags.n ≠ flags.v
  | .gt => !flags.z && (flags.n = flags.v)
  | .le => flags.z || (flags.n ≠ flags.v)
  | .ge => flags.n = flags.v
  | .hi => flags.c && !flags.z
  | .ls => !flags.c || flags.z
  | .hs => flags.c
  | .lo => !flags.c

end Flags

/-- The instructions the optimizer rewrites, produces or removes, and the
conditional set. -/
def alu : Aarch64Inst → Option ((Operand Reg → BitVec 64) → Flags → (Operand Reg → BitVec 64) × Flags)
  | .movImm dst imm => some fun regs flags => (write regs dst (.ofInt 64 imm), flags)
  | .movRR dst src => some fun regs flags => (write regs dst (read regs src), flags)
  | .addImm dst src imm => some fun regs flags => (write regs dst (read regs src + .ofInt 64 imm), flags)
  | .subImm dst src imm => some fun regs flags => (write regs dst (read regs src - .ofInt 64 imm), flags)
  | .cmpImm src imm => some fun regs _ => (regs, .sub (read regs src) (.ofInt 64 imm))
  | .tstRR src1 src2 => some fun regs _ => (regs, .logic (read regs src1 &&& read regs src2))
  | .cset dst cond => some fun regs flags => (write regs dst (if flags.holds cond then 1 else 0), flags)
  | .lslImm dst src 0 | .lsr64Imm dst src 0 | .asr64Imm dst src 0 | .eorImm dst src 0 =>
    some fun regs flags => (write regs dst (read regs src), flags)
  | .lsl32Imm dst src 0 | .lsr32Imm dst src 0 | .asr32Imm dst src 0 =>
    some fun regs flags => (write regs dst (zeroExtend (low32 (read regs src))), flags)
  | _ => none

/-- When a conditional branch is taken, and where it leads. -/
def branch : Aarch64Inst → Option (((Operand Reg → BitVec 64) → Flags → Bool) × LabelId)
  | .bCond cond label => some (fun _ flags => flags.holds cond, label)
  | .bvs label => some (fun _ flags => flags.v, label)
  | .bvc label => some (fun _ flags => !flags.v, label)
  | .cbz src label => some (fun regs _ => read regs src = 0, label)
  | .cbnz src label => some (fun regs _ => read regs src ≠ 0, label)
  | _ => none

def defines (inst : Aarch64Inst) (label : LabelId) : Bool :=
  match inst with
  | .label id => id = label
  | _ => false

abbrev State (World : Type) := MachineState Reg Flags World

/-- The table of writers is right about the processor. No other instruction
reads NZCV. -/
structure Truthful {World : Type} (processor : Processor Aarch64Inst Reg Flags World) : Prop where
  kept : ∀ inst regs flags flags' world, writesFlags inst = false →
    processor.data inst regs flags' world =
      (processor.data inst regs flags world).map fun result => (result.1, flags', result.2.2)
  written : ∀ inst regs flags flags' world, writesFlags inst = true →
    processor.data inst regs flags' world = processor.data inst regs flags world

/-- The 32-bit instructions that are removed as identities. -/
def identity32 : Aarch64Inst → Option (Operand Reg)
  | .lsl32Imm dst src 0 | .lsr32Imm dst src 0 | .asr32Imm dst src 0 => if dst = src then some dst else none
  | _ => none

/-- A 32-bit identity meets a clear upper half. -/
def Regular (inst : Aarch64Inst) (regs : Operand Reg → BitVec 64) : Prop :=
  ∀ dst ∈ identity32 inst, read regs dst = zeroExtend (low32 (read regs dst))

instance (inst : Aarch64Inst) (regs : Operand Reg → BitVec 64) : Decidable (Regular inst regs) :=
  inferInstanceAs (Decidable (∀ dst ∈ identity32 inst, _))

/-- Where the flags come from: elsewhere, from a compare with zero that the scan
lets become a test, or from such a compare over a taken branch. -/
inductive Carry where
  | ordinary
  | window
  | escaped
  deriving DecidableEq, Repr

section Exec
variable {World : Type} (processor : Processor Aarch64Inst Reg Flags World)

/-- The machine that runs a list of instructions. -/
def exec : Machine Aarch64Inst LabelId (State World) Stop := fun inst _ state =>
  match alu inst, branch inst with
  | some operation, _ =>
    let (regs, flags) := operation state.regs state.flags
    .next { state with regs, flags }
  | none, some (condition, label) => decideBranch state (condition state.regs state.flags) label
  | none, none =>
    match inst with
    | .b label => .jump label state
    | .label _ => .next state
    | .ret => .stop .returned state
    | .brk => .stop .trapped state
    | .bl .. | .blr _ | .svc _ => finish state .neverReturned (processor.call inst state.regs state.world)
    | inst => finish state .faulted (processor.data inst state.regs state.flags state.world)

/-- The machine that is stuck where a step is not regular. -/
def regularExec : Machine Aarch64Inst LabelId (State World) Stop := fun inst rest state =>
  if Regular inst state.regs then exec processor inst rest state else .stuck

end Exec

end Rue.Proofs.Aarch64
