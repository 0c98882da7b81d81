import Rue.Codegen.Rematerialize

/-! The AArch64 machine instructions and their effect on NZCV. -/

namespace Rue.Codegen.Aarch64

inductive Reg where
  | x0 | x1 | x2 | x3 | x4 | x5 | x6 | x7 | x8 | x9 | x10 | x11 | x12 | x13 | x14 | x15
  | x16 | x17 | x18 | x19 | x20 | x21 | x22 | x23 | x24 | x25 | x26 | x27 | x28
  | fp | lr | sp | xzr
  | v0 | v1 | v2 | v3 | v4 | v5 | v6 | v7 | v8 | v9 | v10 | v11 | v12 | v13 | v14 | v15
  | v16 | v17 | v18 | v19 | v20 | v21 | v22 | v23 | v24 | v25 | v26 | v27 | v28 | v29 | v30 | v31
  deriving DecidableEq, Repr

inductive Cond where
  | eq | ne
  | lt | gt | le | ge
  | hi | ls | hs | lo
  deriving DecidableEq, Repr

/-- The largest immediate of the two-instruction add and subtract. -/
def maxAddSubImmediate : Int := 2 ^ 24 - 1

inductive Aarch64Inst where
  | floatConst (dst : Operand Reg) (bits : Nat) (width : FloatWidth)
  | floatMov (dst src : Operand Reg) (width : FloatWidth)
  | floatToBits (dst src : Operand Reg) (width : FloatWidth)
  | bitsToFloat (dst src : Operand Reg) (width : FloatWidth)
  | floatLoad (dst : Operand Reg) (base : Reg) (offset : Int) (width : FloatWidth)
  | floatStore (base : Reg) (offset : Int) (src : Operand Reg) (width : FloatWidth)
  | floatBin (op : FloatBinOp) (dst lhs rhs : Operand Reg) (width : FloatWidth)
  | floatNeg (dst src : Operand Reg) (width : FloatWidth)
  | floatSqrt (dst src : Operand Reg) (width : FloatWidth)
  | floatRound (dst src : Operand Reg) (width : FloatWidth) (mode : FloatRounding)
  | floatCmp (lhs rhs : Operand Reg) (width : FloatWidth)
  | intToFloat (dst src : Operand Reg) (intBits : Nat) (width : FloatWidth) (unsigned : Bool)
  | floatToInt (dst src : Operand Reg) (intBits : Nat) (width : FloatWidth) (unsigned : Bool)
  | floatCast (dst src : Operand Reg) (source target : FloatWidth)
  | movImm (dst : Operand Reg) (imm : Int)
  | movRR (dst src : Operand Reg)
  | ldr (dst : Operand Reg) (base : Reg) (offset : Int)
  | str (src : Operand Reg) (base : Reg) (offset : Int)
  | ldrIndexed (dst : Operand Reg) (base : VReg)
  | strIndexed (src : Operand Reg) (base : VReg)
  | narrowLoadIndexed (dst : Operand Reg) (base : VReg) (offset : Int) (width : Nat) (signed : Bool)
  | narrowStoreIndexed (src : Operand Reg) (base : VReg) (offset : Int) (width : Nat)
  | narrowLoad (dst : Operand Reg) (base : Reg) (offset : Int) (width : Nat) (signed : Bool)
  | narrowStore (src : Operand Reg) (base : Reg) (offset : Int) (width : Nat)
  | ldrIndexedOffset (dst : Operand Reg) (base : VReg) (offset : Int)
  | strIndexedOffset (src : Operand Reg) (base : VReg) (offset : Int)
  | lslImm (dst src : Operand Reg) (imm : Nat)
  | lsl32Imm (dst src : Operand Reg) (imm : Nat)
  | lsr32Imm (dst src : Operand Reg) (imm : Nat)
  | asr32Imm (dst src : Operand Reg) (imm : Nat)
  | addRR (dst src1 src2 : Operand Reg)
  | addsRR (dst src1 src2 : Operand Reg)
  | addsRR64 (dst src1 src2 : Operand Reg)
  | addImm (dst src : Operand Reg) (imm : Int)
  | subRR (dst src1 src2 : Operand Reg)
  | subsRR (dst src1 src2 : Operand Reg)
  | subsRR64 (dst src1 src2 : Operand Reg)
  | subImm (dst src : Operand Reg) (imm : Int)
  | mulRR (dst src1 src2 : Operand Reg)
  | smullRR (dst src1 src2 : Operand Reg)
  | umullRR (dst src1 src2 : Operand Reg)
  | smulhRR (dst src1 src2 : Operand Reg)
  | umulhRR (dst src1 src2 : Operand Reg)
  | lsr64Imm (dst src : Operand Reg) (imm : Nat)
  | asr64Imm (dst src : Operand Reg) (imm : Nat)
  | sdivRR (dst src1 src2 : Operand Reg)
  | udivRR (dst src1 src2 : Operand Reg)
  | sdiv64RR (dst src1 src2 : Operand Reg)
  | udiv64RR (dst src1 src2 : Operand Reg)
  | msub (dst src1 src2 src3 : Operand Reg)
  | msub64 (dst src1 src2 src3 : Operand Reg)
  | neg (dst src : Operand Reg)
  | negs (dst src : Operand Reg)
  | negs32 (dst src : Operand Reg)
  | andRR (dst src1 src2 : Operand Reg)
  | orrRR (dst src1 src2 : Operand Reg)
  | eorRR (dst src1 src2 : Operand Reg)
  | eorImm (dst src : Operand Reg) (imm : Nat)
  | mvnRR (dst src : Operand Reg)
  | mvn32RR (dst src : Operand Reg)
  | lslRR (dst src1 src2 : Operand Reg)
  | lsl32RR (dst src1 src2 : Operand Reg)
  | lsrRR (dst src1 src2 : Operand Reg)
  | lsr32RR (dst src1 src2 : Operand Reg)
  | asrRR (dst src1 src2 : Operand Reg)
  | asr32RR (dst src1 src2 : Operand Reg)
  | cmpRR (src1 src2 : Operand Reg)
  | cmp64RR (src1 src2 : Operand Reg)
  | cmpImm (src : Operand Reg) (imm : Int)
  | cbz (src : Operand Reg) (label : LabelId)
  | cbnz (src : Operand Reg) (label : LabelId)
  | cset (dst : Operand Reg) (cond : Cond)
  | tstRR (src1 src2 : Operand Reg)
  | sxtb (dst src : Operand Reg)
  | sxth (dst src : Operand Reg)
  | sxtw (dst src : Operand Reg)
  | uxtw (dst src : Operand Reg)
  | uxtb (dst src : Operand Reg)
  | uxth (dst src : Operand Reg)
  | b (label : LabelId)
  | bCond (cond : Cond) (label : LabelId)
  | bvs (label : LabelId)
  | bvc (label : LabelId)
  | label (id : LabelId)
  | bl (symbolId : Nat) (behavior : ReturnBehavior)
  | blr (target : Operand Reg)
  | ret
  | brk
  | svc (imm : Nat)
  | stpPre (src1 src2 : Operand Reg) (offset : Int)
  | ldpPost (dst1 dst2 : Operand Reg) (offset : Int)
  | stringConstPtr (dst : Operand Reg) (stringId : Nat)
  | stringConstLen (dst : Operand Reg) (stringId : Nat)
  | stringConstCap (dst : Operand Reg) (stringId : Nat)
  | symbolAddr (dst : Operand Reg) (symbolId : Nat)

def writesFlags : Aarch64Inst → Bool
  | .addsRR .. | .addsRR64 .. | .subsRR .. | .subsRR64 .. | .negs .. | .negs32 ..
  | .cmpRR .. | .cmp64RR .. | .cmpImm .. | .tstRR .. | .floatCmp .. => true
  | _ => false

end Rue.Codegen.Aarch64

/-! The AArch64 peephole optimizer: single-instruction transforms, combining of
adjacent adds and subtracts, and removal of identity instructions. -/

namespace Rue.Codegen.Aarch64.Peephole

/-- The unsigned comparisons read the carry. -/
def condReadsCarry (cond : Cond) : Bool :=
  match cond with
  | .hs | .lo | .hi | .ls => true
  | _ => false

/-- Whether a compare with zero in front of these instructions may become a
test, which leaves another carry. -/
def cmpZeroToTstSafe : List Aarch64Inst → Bool
  | [] => true
  | inst :: rest =>
    match inst with
    | .bCond cond _ | .cset _ cond => if condReadsCarry cond then false else cmpZeroToTstSafe rest
    | .bvs _ | .bvc _ => cmpZeroToTstSafe rest
    | .b _ | .label _ | .cbz .. | .cbnz .. => false
    | .bl .. | .blr _ | .svc _ | .ret => true
    | inst => if writesFlags inst then true else cmpZeroToTstSafe rest

def transformSingle (inst : Aarch64Inst) (rest : List Aarch64Inst) : Option Aarch64Inst :=
  match inst with
  | .movImm dst imm => if imm = 0 then some (.movRR dst (.physical .xzr)) else none
  | .cmpImm src imm => if imm = 0 ∧ cmpZeroToTstSafe rest then some (.tstRR src src) else none
  | _ => none

/-- Fold an add or subtract of an immediate into the one in front of it, when
both are in place on the same register and the sum stays encodable. -/
def foldPair (earlier later : Aarch64Inst) : Option Aarch64Inst :=
  match earlier, later with
  | .addImm dst1 src1 imm1, .addImm dst2 src2 imm2 =>
    if !(operandsEqual dst1 src1 && operandsEqual dst2 src2 && operandsEqual dst1 dst2) then none
    else
      ((checkedAdd32 imm1 imm2).filter fun combined =>
        -maxAddSubImmediate ≤ combined ∧ combined ≤ maxAddSubImmediate).map (.addImm dst1 src1)
  | .subImm dst1 src1 imm1, .subImm dst2 src2 imm2 =>
    if !(operandsEqual dst1 src1 && operandsEqual dst2 src2 && operandsEqual dst1 dst2) then none
    else
      ((checkedAdd32 imm1 imm2).filter fun combined => 0 ≤ combined ∧ combined ≤ maxAddSubImmediate).map (.subImm dst1 src1)
  | _, _ => none

/-- Walk on from an accumulator, with the number of instructions folded away. -/
def combineFrom (accumulator : Aarch64Inst) : List Aarch64Inst → List Aarch64Inst × Nat
  | [] => ([accumulator], 0)
  | inst :: rest =>
    match foldPair accumulator inst with
    | some folded =>
      let (survivors, changes) := combineFrom folded rest
      (survivors, changes + 1)
    | none =>
      let (survivors, changes) := combineFrom inst rest
      (accumulator :: survivors, changes)

def combineAdjacent : List Aarch64Inst → List Aarch64Inst × Nat
  | [] => ([], 0)
  | inst :: rest => combineFrom inst rest

/-- A move from the zero register is no identity even onto itself. -/
def isRedundant : Aarch64Inst → Bool
  | .movRR dst src => operandsEqual dst src && !decide (src = .physical .xzr)
  | .addImm dst src imm | .subImm dst src imm => decide (imm = 0) && operandsEqual dst src
  | .lslImm dst src imm | .lsl32Imm dst src imm | .lsr32Imm dst src imm | .lsr64Imm dst src imm
  | .asr32Imm dst src imm | .asr64Imm dst src imm => decide (imm = 0) && operandsEqual dst src
  | .eorImm dst src imm => decide (imm = 0) && operandsEqual dst src
  | _ => false

/-- The first pass. An instruction is transformed against what follows it, which
the pass has not reached yet. -/
def transformAll : List Aarch64Inst → List Aarch64Inst × Nat
  | [] => ([], 0)
  | inst :: rest =>
    let (transformed, changes) := transformAll rest
    match transformSingle inst rest with
    | some replacement => (replacement :: transformed, changes + 1)
    | none => (inst :: transformed, changes)

/-- The optimized list and the number of changes. -/
def optimize (instructions : List Aarch64Inst) : List Aarch64Inst × Nat :=
  let (transformed, rewrites) := transformAll instructions
  let (combined, folds) := combineAdjacent transformed
  let kept := combined.filter fun inst => !isRedundant inst
  (kept, rewrites + folds + (combined.length - kept.length))

end Rue.Codegen.Aarch64.Peephole
