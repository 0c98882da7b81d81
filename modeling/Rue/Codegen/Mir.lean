import Mathlib.Algebra.Order.Ring.Int
import Mathlib.Data.List.Basic

/-! Virtual registers, register classes, and a target's allocatable registers.
A register file splits every class by who preserves a register across calls. -/

namespace Rue.Codegen

abbrev VReg := Nat

/-- Dense storage indexed by virtual register. -/
abbrev IndexMap (α : Type) := List α

inductive RegClass where
  | gp
  | fp
  deriving DecidableEq, Repr

namespace RegClass

def all : List RegClass := [gp, fp]

theorem mem_all (kind : RegClass) : kind ∈ all := by cases kind <;> simp [all]

end RegClass

/-- One class's allocatable registers. The compact registers are a subset of
the callee-saved ones, so offering a compact register never leaves the class. -/
structure SaveClasses (Reg : Type) where
  callerSaved : List Reg
  calleeSaved : List Reg
  compactCalleeSaved : List Reg
  compact_subset : ∀ reg ∈ compactCalleeSaved, reg ∈ calleeSaved

namespace SaveClasses

variable {Reg : Type}

def empty : SaveClasses Reg := ⟨[], [], [], by simp⟩

def calleeSavedOnly (regs : List Reg) : SaveClasses Reg := ⟨[], regs, [], by simp⟩

/-- The registers of the class, in the order allocation offers them. -/
def regs (save : SaveClasses Reg) : List Reg := save.callerSaved ++ save.calleeSaved

def isCalleeSaved [DecidableEq Reg] (save : SaveClasses Reg) (reg : Reg) : Bool :=
  save.calleeSaved.contains reg

@[simp] theorem isCalleeSaved_iff [DecidableEq Reg] (save : SaveClasses Reg) (reg : Reg) :
    save.isCalleeSaved reg = true ↔ reg ∈ save.calleeSaved := by
  simp [isCalleeSaved]

end SaveClasses

/-- A target's register file has one `SaveClasses` for each register class. -/
structure RegisterFile (Reg : Type) where
  classes : RegClass → SaveClasses Reg

namespace RegisterFile

variable {Reg : Type}

def gpOnly (save : SaveClasses Reg) : RegisterFile Reg :=
  ⟨fun | .gp => save | .fp => .empty⟩

/-- Every caller-saved register of every class, in class order. -/
def callerSavedFlattened (file : RegisterFile Reg) : List Reg :=
  RegClass.all.flatMap fun kind => (file.classes kind).callerSaved

theorem mem_callerSavedFlattened {file : RegisterFile Reg} {kind : RegClass} {reg : Reg}
    (member : reg ∈ (file.classes kind).callerSaved) : reg ∈ file.callerSavedFlattened :=
  List.mem_flatMap.mpr ⟨kind, kind.mem_all, member⟩

end RegisterFile

end Rue.Codegen

/-! What the machine instructions of both targets are made of. -/

namespace Rue.Codegen

abbrev LabelId := Nat

/-- A register, before or after allocation. -/
inductive Operand (Reg : Type) where
  | virtual (vreg : VReg)
  | physical (reg : Reg)
  deriving DecidableEq, Repr

/-- The virtual registers an operand names. -/
def Operand.vregs {Reg : Type} : Operand Reg → List VReg
  | .virtual vreg => [vreg]
  | .physical _ => []

inductive FloatWidth where
  | f32
  | f64
  deriving DecidableEq, Repr

inductive FloatRounding where
  | floor
  | ceil
  | trunc
  | nearestTiesAway
  deriving DecidableEq, Repr

inductive FloatBinOp where
  | add
  | sub
  | mul
  | div
  deriving DecidableEq, Repr

inductive ReturnBehavior where
  | returns
  | never
  deriving DecidableEq, Repr

/-- Whether two operands are the same physical register. Virtual registers are
not compared. -/
def operandsEqual {Reg : Type} [DecidableEq Reg] : Operand Reg → Operand Reg → Bool
  | .physical a, .physical b => a = b
  | _, _ => false

theorem eq_of_operandsEqual {Reg : Type} [DecidableEq Reg] {a b : Operand Reg} (same : operandsEqual a b = true) : a = b := by
  cases a with
  | virtual => cases same
  | physical => cases b with
    | virtual => cases same
    | physical => exact congrArg Operand.physical (of_decide_eq_true same)

/-- Add two signed 32-bit integers unless the sum leaves the width. -/
def checkedAdd32 (a b : Int) : Option Int := if -2 ^ 31 ≤ a + b ∧ a + b < 2 ^ 31 then some (a + b) else none

end Rue.Codegen
