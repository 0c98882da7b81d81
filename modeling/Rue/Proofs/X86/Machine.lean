import Rue.Codegen.X86.Mir
import Rue.Proofs.Machine

/-! An x86-64 machine. The instructions the peephole optimizer rewrites and the
transfers of control have their meaning here; the processor supplies the rest,
subject to the tables of FLAGS readers and writers. -/

namespace Rue.Proofs.X86
open Rue.Codegen Rue.Codegen.X86 Peephole Rue.Lib.Program

abbrev Registers := Operand Reg → BitVec 64

structure Flags where
  cf : Bool
  pf : Bool
  zf : Bool
  sf : Bool
  of : Bool
  deriving DecidableEq, Repr

namespace Flags
variable {w : Nat}

/-- Whether the low byte has an even number of bits set. -/
def parity (value : BitVec w) : Bool := ((List.range 8).countP fun index => value.getLsbD index) % 2 = 0

def add (a b : BitVec w) : Flags :=
  let sum := a + b
  ⟨sum.toNat < a.toNat, parity sum, sum = 0, sum.msb, a.msb = b.msb ∧ sum.msb ≠ a.msb⟩

def sub (a b : BitVec w) : Flags :=
  let difference := a - b
  ⟨a.toNat < b.toNat, parity difference, difference = 0, difference.msb, a.msb ≠ b.msb ∧ difference.msb ≠ a.msb⟩

def logic (result : BitVec w) : Flags := ⟨false, parity result, result = 0, result.msb, false⟩

end Flags

/-- The instructions the optimizer rewrites, produces or removes. -/
def alu : X86Inst → Option (Registers → Flags → Registers × Flags)
  | .movRI32 dst imm => some fun regs flags => (Function.update regs dst (zeroExtend (.ofInt 32 imm)), flags)
  | .movRR dst src => some fun regs flags => (Function.update regs dst (regs src), flags)
  | .addRI dst imm => some fun regs _ =>
    let addend := .ofInt 64 imm
    (Function.update regs dst (regs dst + addend), .add (regs dst) addend)
  | .xorRR dst src => some fun regs _ =>
    let result := low32 (regs dst) ^^^ low32 (regs src)
    (Function.update regs dst (zeroExtend result), .logic result)
  | .xorRI dst imm => some fun regs _ =>
    let result := low32 (regs dst) ^^^ .ofInt 32 imm
    (Function.update regs dst (zeroExtend result), .logic result)
  | .cmpRI src imm => some fun regs _ => (regs, .sub (low32 (regs src)) (.ofInt 32 imm))
  | .cmp64RI src imm => some fun regs _ => (regs, .sub (regs src) (.ofInt 64 imm))
  | .testRR src1 src2 => some fun regs _ => (regs, .logic (low32 (regs src1) &&& low32 (regs src2)))
  | .test64RR src1 src2 => some fun regs _ => (regs, .logic (regs src1 &&& regs src2))
  | .shlRI _ 0 | .shrRI _ 0 | .sarRI _ 0 => some fun regs flags => (regs, flags)
  | .shl32RI dst 0 | .shr32RI dst 0 | .sar32RI dst 0 => some fun regs flags =>
    (Function.update regs dst (zeroExtend (low32 (regs dst))), flags)
  | _ => none

/-- When a conditional branch is taken, and where it leads. -/
def branch : X86Inst → Option ((Flags → Bool) × LabelId)
  | .jz label => some (Flags.zf, label)
  | .jnz label => some (fun flags => !flags.zf, label)
  | .jo label => some (Flags.of, label)
  | .jno label => some (fun flags => !flags.of, label)
  | .jb label => some (Flags.cf, label)
  | .jae label => some (fun flags => !flags.cf, label)
  | .jbe label => some (fun flags => flags.cf || flags.zf, label)
  | .ja label => some (fun flags => !flags.cf && !flags.zf, label)
  | .jge label => some (fun flags => flags.sf = flags.of, label)
  | .jle label => some (fun flags => flags.zf || flags.sf ≠ flags.of, label)
  | _ => none

def defines (inst : X86Inst) (label : LabelId) : Bool :=
  match inst with
  | .label id => id = label
  | _ => false

abbrev State (World : Type) := MachineState Reg Flags World

/-- An immediate shift count that the processor does not reduce. -/
def countInRange : X86Inst → Bool
  | .shlRI _ imm | .shrRI _ imm | .sarRI _ imm => imm < 64
  | .shl32RI _ imm | .shr32RI _ imm | .sar32RI _ imm => imm < 32
  | _ => true

/-- The tables of readers and writers are right about the processor. -/
structure Truthful {World : Type} (processor : Processor X86Inst Reg Flags World) : Prop where
  unread : ∀ inst regs flags flags' world, readsFlags inst = false → writesFlags inst = false →
    processor.data inst regs flags' world =
      (processor.data inst regs flags world).map fun result => (result.1, flags', result.2.2)
  written : ∀ inst regs flags flags' world, readsFlags inst = false → writesFlags inst = true → countInRange inst = true →
    processor.data inst regs flags' world = processor.data inst regs flags world

section Exec
variable {World : Type} (processor : Processor X86Inst Reg Flags World)

/-- The machine that runs a list of instructions. -/
def exec : Machine X86Inst LabelId (State World) Stop := fun inst _ state =>
  match alu inst, branch inst with
  | some operation, _ =>
    let (regs, flags) := operation state.regs state.flags
    .next { state with regs, flags }
  | none, some (condition, label) => decideBranch state (condition state.flags) label
  | none, none =>
    match inst with
    | .jmp label => .jump label state
    | .label _ => .next state
    | .ret => .stop .returned state
    | .ud2 => .stop .trapped state
    | .callRel .. | .callReg .. | .syscall => finish state .neverReturned (processor.call inst state.regs state.world)
    | inst => finish state .faulted (processor.data inst state.regs state.flags state.world)

/-- The 32-bit instructions that are removed as identities. -/
def identity32 : X86Inst → Option (Operand Reg)
  | .xorRI dst 0 | .shl32RI dst 0 | .shr32RI dst 0 | .sar32RI dst 0 => some dst
  | _ => none

/-- A 32-bit identity meets a clear upper half, and shift counts are in range. -/
def Regular (inst : X86Inst) (regs : Registers) : Prop :=
  (∀ dst ∈ identity32 inst, regs dst = zeroExtend (low32 (regs dst))) ∧ countInRange inst = true

instance (inst : X86Inst) (regs : Registers) : Decidable (Regular inst regs) := inferInstanceAs (Decidable (_ ∧ _))

/-- The machine that is stuck where a step is not regular. -/
def regularExec : Machine X86Inst LabelId (State World) Stop := fun inst rest state =>
  if Regular inst state.regs then exec processor inst rest state else .stuck

end Exec

end Rue.Proofs.X86

/-! FLAGS are live where some path reaches a reader before a writer. The forward
scan never calls live flags dead, and the backward pass is the scan. -/

namespace Rue.Proofs.X86
open Rue.Codegen Rue.Codegen.X86 Peephole Rue.Lib.Program

/-- Control goes on to the next instruction with FLAGS as they were. -/
def passesFlags : X86Inst → Bool
  | .jmp .. | .ret | .ud2 | .callRel .. | .callReg .. | .syscall => false
  | inst => !writesFlags inst || isShiftByZero inst

/-- Some path reads FLAGS before they are written. -/
inductive FlagsLive (program : List X86Inst) : List X86Inst → Prop where
  | reads {inst rest} (reader : readsFlags inst = true) : FlagsLive program (inst :: rest)
  | passes {inst rest} (passing : passesFlags inst = true) (later : FlagsLive program rest) : FlagsLive program (inst :: rest)
  | jumps {label rest there} (target : after defines label program = some there) (later : FlagsLive program there) :
      FlagsLive program (.jmp label :: rest)

section Scan

theorem flagsDead_cons (inst : X86Inst) (rest : List X86Inst) :
    flagsDead (inst :: rest) = scanBack inst (flagsDead rest) := by
  cases inst <;> rfl

theorem foldr_scanBack (instructions : List X86Inst) :
    instructions.foldr (fun inst (result, scanAfter) => (scanAfter :: result, scanBack inst scanAfter)) ([], true) =
      ((List.range instructions.length).map (flagsDeadAfter instructions), flagsDead instructions) := by
  induction instructions with
  | nil => rfl
  | cons inst rest ih =>
    rw [List.foldr_cons, ih, flagsDead_cons, List.length_cons, List.range_succ_eq_map, List.map_cons, List.map_map]
    rfl

/-- The backward pass agrees with the scan at every index. -/
theorem computeFlagsDead_eq (instructions : List X86Inst) :
    computeFlagsDead instructions = (List.range instructions.length).map (flagsDeadAfter instructions) := by
  rw [computeFlagsDead, foldr_scanBack]

theorem computeFlagsDead_cons (inst : X86Inst) (rest : List X86Inst) :
    computeFlagsDead (inst :: rest) = flagsDead rest :: computeFlagsDead rest := by
  simp only [computeFlagsDead, List.foldr_cons, foldr_scanBack]

private theorem scanBack_reads {inst : X86Inst} (reader : readsFlags inst = true) (scanAfter : Bool) :
    scanBack inst scanAfter = false := by
  cases inst <;> first | rfl | cases reader

private theorem scanBack_passes {inst : X86Inst} (passing : passesFlags inst = true) {scanAfter : Bool}
    (dead : scanBack inst scanAfter = true) : scanAfter = true := by
  unfold scanBack at dead
  split at dead
  next => exact dead
  next counted =>
    split at dead
    next => cases dead
    next =>
      split at dead
      next writer =>
        rw [Bool.not_eq_true] at counted
        unfold passesFlags at passing
        split at passing <;> simp_all
      next =>
        split at dead
        all_goals first | exact dead | exact absurd dead Bool.false_ne_true | exact absurd passing Bool.false_ne_true

/-- FLAGS that the scan calls dead are not live on any path. -/
theorem not_live_of_dead {program rest : List X86Inst} (dead : flagsDead rest = true) : ¬ FlagsLive program rest := by
  intro live
  induction live with
  | reads reader =>
    rw [flagsDead_cons, scanBack_reads reader] at dead
    cases dead
  | passes passing _ ih =>
    rw [flagsDead_cons] at dead
    exact ih (scanBack_passes passing dead)
  | jumps => cases dead

end Scan

end Rue.Proofs.X86
