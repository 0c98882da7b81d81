import Rue.Codegen.Rematerialize

/-! The x86-64 machine instructions and their effect on FLAGS. -/

namespace Rue.Codegen.X86

inductive Reg where
  | rax | rcx | rdx | rbx | rsp | rbp | rsi | rdi
  | r8 | r9 | r10 | r11 | r12 | r13 | r14 | r15
  | xmm0 | xmm1 | xmm2 | xmm3 | xmm4 | xmm5 | xmm6 | xmm7
  | xmm8 | xmm9 | xmm10 | xmm11 | xmm12 | xmm13 | xmm14 | xmm15
  deriving DecidableEq, Repr

inductive X86Inst where
  | floatConst (dst : Operand Reg) (bits : Nat) (width : FloatWidth)
  | floatMov (dst src : Operand Reg) (width : FloatWidth)
  | floatToBits (dst src : Operand Reg) (width : FloatWidth)
  | bitsToFloat (dst src : Operand Reg) (width : FloatWidth)
  | floatLoad (dst : Operand Reg) (base : Reg) (offset : Int) (width : FloatWidth)
  | floatStore (base : Reg) (offset : Int) (src : Operand Reg) (width : FloatWidth)
  | floatBin (op : FloatBinOp) (dst src : Operand Reg) (width : FloatWidth)
  | floatNeg (dst src : Operand Reg) (width : FloatWidth)
  | floatSqrt (dst src : Operand Reg) (width : FloatWidth)
  | floatRound (dst src : Operand Reg) (width : FloatWidth) (mode : FloatRounding)
  | floatCmp (lhs rhs : Operand Reg) (width : FloatWidth)
  | intToFloat (dst src : Operand Reg) (intBits : Nat) (width : FloatWidth)
  | floatToInt (dst src : Operand Reg) (intBits : Nat) (width : FloatWidth)
  | floatCast (dst src : Operand Reg) (source target : FloatWidth)
  | movRI32 (dst : Operand Reg) (imm : Int)
  | movRI64 (dst : Operand Reg) (imm : Int)
  | movRR (dst src : Operand Reg)
  | movRM (dst : Operand Reg) (base : Reg) (offset : Int)
  | movMR (base : Reg) (offset : Int) (src : Operand Reg)
  | addRR (dst src : Operand Reg)
  | addRR64 (dst src : Operand Reg)
  | subRR (dst src : Operand Reg)
  | subRR64 (dst src : Operand Reg)
  | addRI (dst : Operand Reg) (imm : Int)
  | imulRR (dst src : Operand Reg)
  | imulRR64 (dst src : Operand Reg)
  | neg (dst : Operand Reg)
  | neg64 (dst : Operand Reg)
  | xorRI (dst : Operand Reg) (imm : Int)
  | andRR (dst src : Operand Reg)
  | orRR (dst src : Operand Reg)
  | xorRR (dst src : Operand Reg)
  | and64RR (dst src : Operand Reg)
  | or64RR (dst src : Operand Reg)
  | xor64RR (dst src : Operand Reg)
  | notR (dst : Operand Reg)
  | not64R (dst : Operand Reg)
  | shlRCl (dst : Operand Reg)
  | shl32RCl (dst : Operand Reg)
  | shlRI (dst : Operand Reg) (imm : Nat)
  | shl32RI (dst : Operand Reg) (imm : Nat)
  | shrRCl (dst : Operand Reg)
  | shr32RCl (dst : Operand Reg)
  | shrRI (dst : Operand Reg) (imm : Nat)
  | shr32RI (dst : Operand Reg) (imm : Nat)
  | sarRCl (dst : Operand Reg)
  | sar32RCl (dst : Operand Reg)
  | sarRI (dst : Operand Reg) (imm : Nat)
  | sar32RI (dst : Operand Reg) (imm : Nat)
  | cdq
  | cqo
  | idivR (src : Operand Reg)
  | divR (src : Operand Reg)
  | idiv64R (src : Operand Reg)
  | div64R (src : Operand Reg)
  | mulR (src : Operand Reg)
  | mul64R (src : Operand Reg)
  | cmpRR (src1 src2 : Operand Reg)
  | cmp64RR (src1 src2 : Operand Reg)
  | cmpRI (src : Operand Reg) (imm : Int)
  | cmp64RI (src : Operand Reg) (imm : Int)
  | sete (dst : Operand Reg)
  | setp (dst : Operand Reg)
  | setnp (dst : Operand Reg)
  | setne (dst : Operand Reg)
  | setl (dst : Operand Reg)
  | setg (dst : Operand Reg)
  | setle (dst : Operand Reg)
  | setge (dst : Operand Reg)
  | setb (dst : Operand Reg)
  | seta (dst : Operand Reg)
  | setbe (dst : Operand Reg)
  | setae (dst : Operand Reg)
  | movzx (dst src : Operand Reg)
  | movsx8To64 (dst src : Operand Reg)
  | movsx16To64 (dst src : Operand Reg)
  | movsx32To64 (dst src : Operand Reg)
  | movzx32To64 (dst src : Operand Reg)
  | movzx8To64 (dst src : Operand Reg)
  | movzx16To64 (dst src : Operand Reg)
  | testRR (src1 src2 : Operand Reg)
  | test64RR (src1 src2 : Operand Reg)
  | jz (label : LabelId)
  | jnz (label : LabelId)
  | jo (label : LabelId)
  | jno (label : LabelId)
  | jb (label : LabelId)
  | jae (label : LabelId)
  | jbe (label : LabelId)
  | ja (label : LabelId)
  | jge (label : LabelId)
  | jle (label : LabelId)
  | jmp (label : LabelId)
  | label (id : LabelId)
  | callRel (symbolId : Nat) (behavior : ReturnBehavior)
  | callReg (target : Operand Reg)
  | syscall
  | ret
  | ud2
  | pop (dst : Operand Reg)
  | push (src : Operand Reg)
  | lea (dst : Operand Reg) (base : Reg) (disp : Int)
  | shl (dst count : Operand Reg)
  | movRMIndexed (dst : Operand Reg) (base : VReg) (offset : Int)
  | movMRIndexed (base : VReg) (offset : Int) (src : Operand Reg)
  | narrowLoadIndexed (dst : Operand Reg) (base : VReg) (offset : Int) (width : Nat) (signed : Bool)
  | narrowStoreIndexed (base : VReg) (src : Operand Reg) (offset : Int) (width : Nat)
  | narrowLoadRM (dst : Operand Reg) (base : Reg) (offset : Int) (width : Nat) (signed : Bool)
  | narrowStoreMR (base : Reg) (src : Operand Reg) (offset : Int) (width : Nat)
  | movRMSib (dst base index : Operand Reg) (scale : Nat) (disp : Int)
  | movMRSib (base index : Operand Reg) (scale : Nat) (disp : Int) (src : Operand Reg)
  | stringConstPtr (dst : Operand Reg) (stringId : Nat)
  | stringConstLen (dst : Operand Reg) (stringId : Nat)
  | symbolAddr (dst : Operand Reg) (symbolId : Nat)
  | stringConstCap (dst : Operand Reg) (stringId : Nat)

/-- A variable-count shift counts as a writer although a count of zero is not. -/
def writesFlags : X86Inst → Bool
  | .addRR .. | .addRR64 .. | .addRI .. | .subRR .. | .subRR64 .. | .imulRR .. | .imulRR64 .. | .idivR .. | .divR ..
  | .idiv64R .. | .div64R .. | .mulR .. | .mul64R .. | .neg .. | .neg64 .. | .andRR .. | .orRR .. | .xorRR ..
  | .and64RR .. | .or64RR .. | .xor64RR .. | .xorRI .. | .shlRCl .. | .shl32RCl .. | .shlRI .. | .shl32RI ..
  | .shrRCl .. | .shr32RCl .. | .shrRI .. | .shr32RI .. | .sarRCl .. | .sar32RCl .. | .sarRI .. | .sar32RI ..
  | .shl .. | .cmpRR .. | .cmp64RR .. | .cmpRI .. | .cmp64RI .. | .testRR .. | .test64RR .. | .floatCmp .. => true
  | _ => false

/-- A variable-count shift also reads FLAGS, because a count of zero keeps them. -/
def readsFlags : X86Inst → Bool
  | .shl .. | .shlRCl .. | .shl32RCl .. | .shrRCl .. | .shr32RCl .. | .sarRCl .. | .sar32RCl .. | .sete .. | .setne ..
  | .setl .. | .setg .. | .setle .. | .setge .. | .setb .. | .seta .. | .setbe .. | .setae .. | .setp .. | .setnp ..
  | .jz .. | .jnz .. | .jo .. | .jno .. | .jb .. | .jae .. | .jbe .. | .ja .. | .jge .. | .jle .. => true
  | _ => false

end Rue.Codegen.X86

/-! The x86-64 peephole optimizer: single-instruction transforms, adjacent add
combining, and removal of identity instructions, each gated on dead FLAGS where
it changes what happens to them. -/

namespace Rue.Codegen.X86.Peephole

/-- A shift by an immediate count of zero leaves FLAGS alone. -/
def isShiftByZero : X86Inst → Bool
  | .shlRI _ imm | .shl32RI _ imm | .shrRI _ imm | .shr32RI _ imm | .sarRI _ imm | .sar32RI _ imm => imm = 0
  | _ => false

/-- Scan forward for the first instruction that decides whether FLAGS are dead. -/
def flagsDead : List X86Inst → Bool
  | [] => true
  | inst :: rest =>
    if isShiftByZero inst then flagsDead rest
    else if readsFlags inst then false
    else if writesFlags inst then true
    else
      match inst with
      | .callRel .. | .callReg .. | .syscall | .ret => true
      | .jmp .. | .label .. => false
      | _ => flagsDead rest

/-- Whether no instruction can observe the FLAGS left at a position. -/
def flagsDeadAfter (instructions : List X86Inst) (idx : Nat) : Bool := flagsDead (instructions.drop (idx + 1))

/-- One step of the backward pass, from the answer behind an instruction to the
answer in front of it. -/
def scanBack (inst : X86Inst) (scanAfter : Bool) : Bool :=
  if isShiftByZero inst then scanAfter
  else if readsFlags inst then false
  else if writesFlags inst then true
  else
    match inst with
    | .callRel .. | .callReg .. | .syscall | .ret => true
    | .jmp .. | .label .. => false
    | _ => scanAfter

/-- The answer behind every instruction, in one backward pass. -/
def computeFlagsDead (instructions : List X86Inst) : List Bool :=
  (instructions.foldr (fun inst (result, scanAfter) => (scanAfter :: result, scanBack inst scanAfter)) ([], true)).1

def removalPreservesFlags (inst : X86Inst) (flagsDead : Bool) : Bool :=
  if !writesFlags inst || isShiftByZero inst then true else flagsDead

def transformSingle (inst : X86Inst) (flagsDead : Bool) : Option X86Inst :=
  match inst with
  | .movRI32 dst imm => if imm = 0 ∧ flagsDead then some (.xorRR dst dst) else none
  | .cmpRI src imm => if imm = 0 then some (.testRR src src) else none
  | .cmp64RI src imm => if imm = 0 then some (.test64RR src src) else none
  | _ => none

/-- Fold an add into the one in front of it, when the register is the same, FLAGS
are dead behind it and the sum is an immediate. -/
def foldAdd (accumulator inst : X86Inst) (rest : List X86Inst) : Option X86Inst :=
  match accumulator, inst with
  | .addRI dst1 imm1, .addRI dst2 imm2 =>
    if !operandsEqual dst1 dst2 || !flagsDead rest then none else (checkedAdd32 imm1 imm2).map (.addRI dst1)
  | _, _ => none

/-- Walk on from an accumulator, with the number of instructions folded away. -/
def combineFrom (accumulator : X86Inst) : List X86Inst → List X86Inst × Nat
  | [] => ([accumulator], 0)
  | inst :: rest =>
    match foldAdd accumulator inst rest with
    | some combined =>
      let (survivors, changes) := combineFrom combined rest
      (survivors, changes + 1)
    | none =>
      let (survivors, changes) := combineFrom inst rest
      (accumulator :: survivors, changes)

def combineAdjacent : List X86Inst → List X86Inst × Nat
  | [] => ([], 0)
  | inst :: rest => combineFrom inst rest

def isRedundant : X86Inst → Bool
  | .movRR dst src => operandsEqual dst src
  | .addRI _ imm | .xorRI _ imm => imm = 0
  | .shlRI _ imm | .shl32RI _ imm | .shrRI _ imm | .shr32RI _ imm | .sarRI _ imm | .sar32RI _ imm => imm = 0
  | _ => false

/-- The first pass, one instruction at a time against the FLAGS behind it. -/
def transformAll (instructions : List X86Inst) : List X86Inst × Nat :=
  let transformed := List.zipWith transformSingle instructions (computeFlagsDead instructions)
  (List.zipWith Option.getD transformed instructions, transformed.countP Option.isSome)

/-- The last pass, marked against the list it is given. -/
def removeRedundant (instructions : List X86Inst) : List X86Inst × Nat :=
  let marked := instructions.zip (computeFlagsDead instructions)
  let doomed := fun (inst, dead) => isRedundant inst && removalPreservesFlags inst dead
  ((marked.filter fun entry => !doomed entry).map Prod.fst, marked.countP doomed)

/-- The optimized list and the number of changes. -/
def optimize (instructions : List X86Inst) : List X86Inst × Nat :=
  let (transformed, rewrites) := transformAll instructions
  let (combined, folds) := combineAdjacent transformed
  let (kept, removals) := removeRedundant combined
  (kept, rewrites + folds + removals)

end Rue.Codegen.X86.Peephole

/-! The x86-64 side of register allocation: what an instruction reads and
writes, and which of its values are cheaper to compute again than to keep. -/

namespace Rue.Codegen.X86

def uses : X86Inst → List VReg
  | .floatMov _ src _ | .floatToBits _ src _ | .bitsToFloat _ src _ | .floatNeg _ src _ | .floatSqrt _ src _
  | .floatRound _ src _ _ | .intToFloat _ src _ _ | .floatToInt _ src _ _ | .floatCast _ src _ _
  | .floatStore _ _ src _ => src.vregs
  | .floatBin _ dst src _ => dst.vregs ++ src.vregs
  | .floatCmp lhs rhs _ => lhs.vregs ++ rhs.vregs
  | .movRR _ src => src.vregs
  | .movMR _ _ src | .narrowStoreMR _ src _ _ => src.vregs
  | .addRR dst src | .addRR64 dst src | .subRR dst src | .subRR64 dst src => dst.vregs ++ src.vregs
  | .addRI dst _ => dst.vregs
  | .imulRR dst src | .imulRR64 dst src => dst.vregs ++ src.vregs
  | .neg dst | .neg64 dst => dst.vregs
  | .xorRI dst _ => dst.vregs
  | .andRR dst src | .orRR dst src | .xorRR dst src | .and64RR dst src | .or64RR dst src
  | .xor64RR dst src => dst.vregs ++ src.vregs
  | .notR dst | .not64R dst => dst.vregs
  | .shlRCl dst | .shl32RCl dst | .shrRCl dst | .shr32RCl dst | .sarRCl dst | .sar32RCl dst => dst.vregs
  | .shlRI dst _ | .shl32RI dst _ | .shrRI dst _ | .shr32RI dst _ | .sarRI dst _ | .sar32RI dst _ => dst.vregs
  | .idivR src | .divR src | .idiv64R src | .div64R src | .mulR src | .mul64R src => src.vregs
  | .testRR src1 src2 | .test64RR src1 src2 => src1.vregs ++ src2.vregs
  | .cmpRR src1 src2 | .cmp64RR src1 src2 => src1.vregs ++ src2.vregs
  | .cmpRI src _ | .cmp64RI src _ => src.vregs
  | .movzx _ src | .movsx8To64 _ src | .movsx16To64 _ src | .movsx32To64 _ src | .movzx32To64 _ src
  | .movzx8To64 _ src | .movzx16To64 _ src => src.vregs
  | .push src => src.vregs
  | .callReg target => target.vregs
  | .shl dst count => dst.vregs ++ count.vregs
  | .movRMIndexed _ base _ | .narrowLoadIndexed _ base _ _ _ => [base]
  | .movMRIndexed base _ src | .narrowStoreIndexed base src _ _ => [base] ++ src.vregs
  | .movRMSib _ base index _ _ => base.vregs ++ index.vregs
  | .movMRSib base index _ _ src => base.vregs ++ index.vregs ++ src.vregs
  | _ => []

def defs : X86Inst → List VReg
  | .floatConst dst _ _ | .floatMov dst _ _ | .floatToBits dst _ _ | .bitsToFloat dst _ _ | .floatLoad dst _ _ _
  | .floatBin _ dst _ _ | .floatNeg dst _ _ | .floatSqrt dst _ _ | .floatRound dst _ _ _ | .intToFloat dst _ _ _
  | .floatToInt dst _ _ _ | .floatCast dst _ _ _ => dst.vregs
  | .movRI32 dst _ | .movRI64 dst _ => dst.vregs
  | .movRR dst _ => dst.vregs
  | .movRM dst _ _ | .narrowLoadRM dst _ _ _ _ => dst.vregs
  | .addRR dst _ | .addRR64 dst _ | .addRI dst _ | .subRR dst _ | .subRR64 dst _ | .imulRR dst _
  | .imulRR64 dst _ => dst.vregs
  | .neg dst | .neg64 dst | .xorRI dst _ => dst.vregs
  | .andRR dst _ | .orRR dst _ | .xorRR dst _ | .and64RR dst _ | .or64RR dst _ | .xor64RR dst _ | .notR dst
  | .not64R dst | .shlRCl dst | .shl32RCl dst | .shlRI dst _ | .shl32RI dst _ | .shrRCl dst | .shr32RCl dst
  | .shrRI dst _ | .shr32RI dst _ | .sarRCl dst | .sar32RCl dst | .sarRI dst _ | .sar32RI dst _ => dst.vregs
  | .sete dst | .setp dst | .setnp dst | .setne dst | .setl dst | .setg dst | .setle dst | .setge dst
  | .setb dst | .seta dst | .setbe dst | .setae dst => dst.vregs
  | .movzx dst _ | .movsx8To64 dst _ | .movsx16To64 dst _ | .movsx32To64 dst _ | .movzx32To64 dst _
  | .movzx8To64 dst _ | .movzx16To64 dst _ => dst.vregs
  | .pop dst => dst.vregs
  | .lea dst _ _ => dst.vregs
  | .shl dst _ => dst.vregs
  | .movRMIndexed dst _ _ | .narrowLoadIndexed dst _ _ _ _ => dst.vregs
  | .movRMSib dst _ _ _ _ => dst.vregs
  | .stringConstPtr dst _ | .symbolAddr dst _ | .stringConstLen dst _ | .stringConstCap dst _ => dst.vregs
  | _ => []

def rematerialization : X86Inst → Option (VReg × RematerializeOp)
  | .movRI32 (.virtual dst) imm => some (dst, .const32 imm)
  | .movRI64 (.virtual dst) imm => some (dst, .const64 imm)
  | .stringConstPtr (.virtual dst) stringId => some (dst, .stringPtr stringId)
  | .stringConstLen (.virtual dst) stringId => some (dst, .stringLen stringId)
  | .stringConstCap (.virtual dst) stringId => some (dst, .stringCap stringId)
  | _ => none

def recompute (op : RematerializeOp) (dst : Operand Reg) : X86Inst :=
  match op with
  | .const32 imm => .movRI32 dst imm
  | .const64 imm => .movRI64 dst imm
  | .stringPtr stringId => .stringConstPtr dst stringId
  | .stringLen stringId => .stringConstLen dst stringId
  | .stringCap stringId => .stringConstCap dst stringId

theorem rematerialization_spec {inst : X86Inst} {vreg : VReg} {op : RematerializeOp}
    (found : rematerialization inst = some (vreg, op)) : defs inst = [vreg] ∧ inst = recompute op (.virtual vreg) := by
  unfold rematerialization at found
  split at found
  · cases found
    exact ⟨rfl, rfl⟩
  · cases found
    exact ⟨rfl, rfl⟩
  · cases found
    exact ⟨rfl, rfl⟩
  · cases found
    exact ⟨rfl, rfl⟩
  · cases found
    exact ⟨rfl, rfl⟩
  · cases found

def x86Backend : RegAllocBackend X86Inst Reg :=
  { uses, defs, rematerialization, recompute
    loadSpilled := fun scratch offset => .movRM (.physical scratch) .rbp offset
    recipe_defines := fun found => (rematerialization_spec found).1
    recipe_recomputes := fun found => (rematerialization_spec found).2 }

end Rue.Codegen.X86
