import Rue.Codegen.Coalesce
import Rue.Codegen.LinearScan

/-! Rematerialization. A coalesced class all of whose definitions write one
cheap value may be recomputed at its uses instead of being kept anywhere. -/

namespace Rue.Codegen

/-- What the shared driver asks of a target. A recipe stands for the whole
instruction: it defines one register, and `recompute` writes it again. -/
structure RegAllocBackend (Inst Reg : Type) where
  uses : Inst → List VReg
  defs : Inst → List VReg
  rematerialization : Inst → Option (VReg × RematerializeOp)
  recompute : RematerializeOp → Operand Reg → Inst
  loadSpilled : Reg → Int → Inst
  recipe_defines : ∀ {inst : Inst} {vreg : VReg} {op : RematerializeOp},
    rematerialization inst = some (vreg, op) → defs inst = [vreg]
  recipe_recomputes : ∀ {inst : Inst} {vreg : VReg} {op : RematerializeOp},
    rematerialization inst = some (vreg, op) → inst = recompute op (.virtual vreg)

inductive RematerializationState where
  | unknown
  | eligible (recipe : RematerializeOp)
  | ineligible
  deriving DecidableEq, Repr

/-- Account for one more definition of the class. -/
def RematerializationState.define : RematerializationState → Option RematerializeOp → RematerializationState
  | .ineligible, _ => .ineligible
  | .unknown, some recipe => .eligible recipe
  | .eligible existing, some recipe => if existing = recipe then .eligible existing else .ineligible
  | _, none => .ineligible

def VRegInfo.none : VRegInfo := ⟨Option.none⟩
def VRegInfo.rematerializable (op : RematerializeOp) : VRegInfo := ⟨some op⟩

section Driver
variable {Inst Reg : Type} (backend : RegAllocBackend Inst Reg)

/-- The recipe by which an instruction writes one of its definitions. -/
def recipeFor (inst : Inst) (defined : VReg) : Option RematerializeOp :=
  ((backend.rematerialization inst).filter fun candidate => candidate.1 = defined).map Prod.snd

def defineAll (result : CoalesceResult) (states : IndexMap RematerializationState) (entry : Inst × Nat) :
    IndexMap RematerializationState :=
  if result.isEliminated entry.2 then states
  else
    (backend.defs entry.1).foldl (fun states defined =>
      states.modify (result.representative defined) fun state => state.define (recipeFor backend entry.1 defined)) states

/-- One recipe for each class whose surviving definitions agree on it. -/
def rematerializationInfo (vregCount : Nat) (instructions : List Inst) (result : CoalesceResult) : IndexMap VRegInfo :=
  (instructions.zipIdx.foldl (defineAll backend result) (List.replicate vregCount .unknown)).map fun
    | .eligible recipe => .rematerializable recipe
    | _ => .none

structure AllocationContext (Reg : Type) where
  allocation : IndexMap (Option (Allocation Reg))
  coalesceResult : CoalesceResult

/-- The final assignment of a register is that of its class. -/
def AllocationContext.allocationOf (context : AllocationContext Reg) (vreg : VReg) : Option (Allocation Reg) :=
  context.allocation[context.coalesceResult.representative vreg]?.join

inductive CompileError where
  | notAllocated (vreg : VReg)
  deriving DecidableEq, Repr

/-- The instructions that bring an operand into a register, and that register. -/
def loadOperand (context : AllocationContext Reg) (scratch : Reg) :
    Operand Reg → Except CompileError (List Inst × Operand Reg)
  | .virtual vreg =>
    match context.allocationOf vreg with
    | some (.register reg) => .ok ([], .physical reg)
    | some (.spill offset) => .ok ([backend.loadSpilled scratch offset], .physical scratch)
    | some (.rematerialize op) => .ok ([backend.recompute op (.physical scratch)], .physical scratch)
    | none => .error (.notAllocated vreg)
  | .physical reg => .ok ([], .physical reg)

variable [DecidableEq Reg]

/-- Whether the rewrite drops an instruction because every use recomputes it. -/
def recomputedAtUses (context : AllocationContext Reg) (inst : Inst) : Bool :=
  match backend.rematerialization inst with
  | some (defined, recipe) => context.allocationOf defined = some (.rematerialize recipe)
  | none => false

/-- Rewrite the instructions in source order. What a target makes of one
instruction it is handed is the target's own. -/
def rewriteInstructions (context : AllocationContext Reg)
    (rewriteInst : AllocationContext Reg → Inst → Except CompileError (List Inst)) :
    List (Inst × Nat) → Except CompileError (List Inst)
  | [] => .ok []
  | (inst, idx) :: rest =>
    if context.coalesceResult.isEliminated idx then rewriteInstructions context rewriteInst rest
    else if recomputedAtUses backend context inst then rewriteInstructions context rewriteInst rest
    else do
      let rewritten ← rewriteInst context inst
      let others ← rewriteInstructions context rewriteInst rest
      return rewritten ++ others

end Driver

end Rue.Codegen
