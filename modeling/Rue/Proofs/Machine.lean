import Rue.Codegen.Mir
import Rue.Lib.Program

/-! What the machines of both targets have in common. -/

namespace Rue.Proofs
open Rue.Codegen Rue.Lib.Program

def low32 (value : BitVec 64) : BitVec 32 := value.setWidth 32

/-- A 32-bit result clears the upper half of the register. -/
def zeroExtend (value : BitVec 32) : BitVec 64 := value.setWidth 64

@[simp] theorem ofInt_zero (w : Nat) : BitVec.ofInt w 0 = 0#w := rfl

/-- The state, with the decisions of the conditional branches so far. Memory and
everything outside the program are the world. -/
structure MachineState (Reg Flags World : Type) where
  regs : Operand Reg → BitVec 64
  flags : Flags
  world : World
  decisions : List (LabelId × Bool)

inductive Stop where
  | returned
  | trapped
  | faulted
  | neverReturned
  deriving DecidableEq, Repr

/-- The processor on the instructions an optimizer leaves alone, and what is
called. Callees and the system do not look at flags. -/
structure Processor (Inst Reg Flags World : Type) where
  data : Inst → (Operand Reg → BitVec 64) → Flags → World → Option ((Operand Reg → BitVec 64) × Flags × World)
  call : Inst → (Operand Reg → BitVec 64) → World → Option ((Operand Reg → BitVec 64) × Flags × World)

section Steps
variable {Reg Flags World : Type}

/-- Go on with what the processor answers, if it does. -/
def finish (state : MachineState Reg Flags World) (fault : Stop) :
    Option ((Operand Reg → BitVec 64) × Flags × World) → Effect (MachineState Reg Flags World) LabelId Stop
  | none => .stop fault state
  | some (regs, flags, world) => .next { state with regs, flags, world }

/-- Note the decision and follow it. -/
def decideBranch (state : MachineState Reg Flags World) (taken : Bool) (label : LabelId) :
    Effect (MachineState Reg Flags World) LabelId Stop :=
  let state := { state with decisions := state.decisions ++ [(label, taken)] }
  if taken then .jump label state else .next state

end Steps

/-- The states differ at most in flags. -/
def SameButFlags {Reg Flags World : Type} (state state' : MachineState Reg Flags World) : Prop :=
  ∃ flags, state' = { state with flags }

theorem SameButFlags.refl {Reg Flags World : Type} (state : MachineState Reg Flags World) : SameButFlags state state :=
  ⟨state.flags, rfl⟩

theorem SameButFlags.trans {Reg Flags World : Type} {first second third : MachineState Reg Flags World}
    (front : SameButFlags first second) (back : SameButFlags second third) : SameButFlags first third := by
  obtain ⟨_, rfl⟩ := front
  obtain ⟨flags, rfl⟩ := back
  exact ⟨flags, rfl⟩

end Rue.Proofs
