import Rue.Codegen.Aarch64.Encode

/-! The AArch64 emitter: prologue and epilogue, one instruction at a time, and
the rounds that relax conditional branches before every branch is patched. -/

namespace Rue.Codegen.Aarch64
open Rue.Lib.A64 (Word place)

inductive Incoming where
  | gpReg (index : Nat)
  | fpReg (index : Nat) (width : FloatWidth)
  | stack (offset : Int) (narrow : Option (Nat × Bool))
  deriving DecidableEq, Repr

/-- One argument and the offset of its frame slot. -/
structure ParamHoming where
  incoming : Incoming
  slot : Int
  deriving DecidableEq, Repr

/-- The fields of the emitter that no round changes. `stackSize` is the frame
size less the saved area, and the slots are the ones frame layout computes. -/
structure EmitContext where
  instructions : List Aarch64Inst
  strings : List String
  calleeSaved : List Reg
  slots : Nat
  stackSize : Int
  homing : List ParamHoming
  sretSlot : Option Int
  framePointer : Bool
  frameOptOut : Bool

namespace EmitContext
variable (context : EmitContext)

def frameless : Bool := !context.frameOptOut && !context.framePointer
def hasFramePointer : Bool := !context.frameOptOut && context.framePointer
def hasFrame : Bool := !context.frameOptOut && (context.framePointer || !context.calleeSaved.isEmpty)

/-- Registers are saved in pairs of sixteen bytes. -/
def calleeSavedStackSize : Int := ((context.calleeSaved.length + 1) / 2 * 16 : Nat)

/-- Negative offsets from the frame pointer skip the saved registers. -/
def adjustFpOffset (base : Reg) (offset : Int) : Int :=
  if base = .fp ∧ offset < 0 then offset - context.calleeSavedStackSize else offset

end EmitContext

def signedMagnitudeU32 (value : Int) : Except EmitError Nat :=
  if value.natAbs < 2 ^ 32 then .ok value.natAbs else .error .panic

def asI32 (value : Int) : Except EmitError Int :=
  if -2 ^ 31 ≤ value ∧ value < 2 ^ 31 then .ok value else .error .panic

def asPhysical : Operand Reg → Except EmitError Reg
  | .physical reg => .ok reg
  | .virtual _ => .error .panic

def paramRegs : List Reg := [.x0, .x1, .x2, .x3, .x4, .x5, .x6, .x7]
def fpParamRegs : List Reg := [.v0, .v1, .v2, .v3, .v4, .v5, .v6, .v7]

def saveCalleeSaved : List Reg → Except EmitError (List Word)
  | first :: second :: rest => do
    let pair ← emitStpPre first second (-16)
    let others ← saveCalleeSaved rest
    return pair ++ others
  | [last] => emitStrPre last (-16)
  | [] => .ok []

/-- In the reverse order of the saves. -/
def restoreCalleeSaved : List Reg → Except EmitError (List Word)
  | first :: second :: rest => do
    let others ← restoreCalleeSaved rest
    let pair ← emitLdpPost first second 16
    return others ++ pair
  | [last] => emitLdrPost last 16
  | [] => .ok []

def homeParam (homing : ParamHoming) : Except EmitError (List Word) :=
  match homing.incoming with
  | .gpReg index =>
    match paramRegs[index]? with
    | some reg => emitStr reg .fp homing.slot
    | none => .error .panic
  | .fpReg index width =>
    match fpParamRegs[index]? with
    | some reg => emitFloatMem false reg .fp homing.slot width
    | none => .error .panic
  | .stack offset narrow => do
    let loaded ← match narrow with
      | some (width, signed) => emitNarrowLoad .x9 .fp offset width signed
      | none => emitLdr .x9 .fp offset
    let stored ← emitStr .x9 .fp homing.slot
    return loaded ++ stored

/-- The adjustment of the stack pointer by the slot region, when there is one. -/
def slotRegion (context : EmitContext) (emit : Reg → Reg → Nat → Except EmitError (List Word)) : Except EmitError (List Word) :=
  if 0 < context.slots ∧ 0 < context.stackSize then emit .sp .sp context.stackSize.toNat else .ok []

def emitPrologue (context : EmitContext) : Except EmitError (List Word) := do
  let linked ← if context.hasFramePointer then do
      let pair ← emitStpPre .fp .lr (-16)
      let moved ← emitMovRR .fp .sp
      pure (pair ++ moved)
    else pure []
  let saved ← saveCalleeSaved context.calleeSaved
  let reserved ← slotRegion context emitSubImm
  let homed ← context.homing.mapM homeParam
  let sret ← match context.sretSlot with
    | some slot => emitStr .x8 .fp slot
    | none => pure []
  return linked ++ saved ++ reserved ++ homed.flatten ++ sret

def emitEpilogue (context : EmitContext) : Except EmitError (List Word) := do
  let released ← slotRegion context emitAddImm
  let restored ← restoreCalleeSaved context.calleeSaved
  let linked ← if context.hasFramePointer then emitLdpPost .fp .lr 16 else pure []
  return released ++ restored ++ linked

/-- Float instructions assert the class of each operand. -/
def assertFloatOperandClasses (inst : Aarch64Inst) : Except EmitError Unit :=
  let fp : Operand Reg → Bool | .physical reg => reg.regClass = .fp | .virtual _ => false
  let gp : Operand Reg → Bool | .physical reg => reg.regClass = .gp | .virtual _ => false
  let holds : Bool := match inst with
    | .floatConst dst _ _ => fp dst
    | .floatMov dst src _ | .floatNeg dst src _ | .floatSqrt dst src _ | .floatRound dst src _ _ | .floatCast dst src _ _ =>
      fp dst && fp src
    | .floatToBits dst src _ | .floatToInt dst src _ _ _ => gp dst && fp src
    | .bitsToFloat dst src _ | .intToFloat dst src _ _ _ => fp dst && gp src
    | .floatLoad dst base _ _ => fp dst && decide (base.regClass = .gp)
    | .floatStore base _ src _ => decide (base.regClass = .gp) && fp src
    | .floatBin _ dst lhs rhs _ => fp dst && fp lhs && fp rhs
    | .floatCmp lhs rhs _ => fp lhs && fp rhs
    | _ => true
  if holds then .ok () else .error .panic

def threeOperands (emit : Reg → Reg → Reg → List Word) (dst src1 src2 : Operand Reg) : Except EmitError (List Word) := do
  return emit (← asPhysical dst) (← asPhysical src1) (← asPhysical src2)

def twoOperands (emit : Reg → Reg → List Word) (dst src : Operand Reg) : Except EmitError (List Word) := do
  return emit (← asPhysical dst) (← asPhysical src)

/-- The instructions that are nothing but words. -/
def encodeInst (context : EmitContext) : Aarch64Inst → Except EmitError (List Word)
  | .floatConst dst bits width => do return emitMovImm .x9 bits ++ emitFloatFromGp (← asPhysical dst) .x9 width
  | .floatMov dst src width => twoOperands (emitFloatUnary 0x1e204000 · · width) dst src
  | .floatToBits dst src width => twoOperands (emitFloatToGp · · width) dst src
  | .bitsToFloat dst src width => twoOperands (emitFloatFromGp · · width) dst src
  | .floatNeg dst src width => twoOperands (emitFloatUnary 0x1e214000 · · width) dst src
  | .floatSqrt dst src width => twoOperands (emitFloatUnary 0x1e21c000 · · width) dst src
  | .floatRound dst src width mode => twoOperands (emitFloatUnary (floatRoundBase mode) · · width) dst src
  | .floatLoad dst base offset width => do
    emitFloatMem true (← asPhysical dst) base (BitVec.ofInt 32 (context.adjustFpOffset base offset)).toInt width
  | .floatStore base offset src width => do
    emitFloatMem false (← asPhysical src) base (BitVec.ofInt 32 (context.adjustFpOffset base offset)).toInt width
  | .floatBin op dst lhs rhs width => threeOperands (emitFloatBinary (floatBinBase op) · · · width) dst lhs rhs
  | .floatCmp lhs rhs width => twoOperands (emitFloatCmp · · width) lhs rhs
  | .intToFloat dst src intBits width unsigned => twoOperands (emitCvtf · · intBits width unsigned) dst src
  | .floatToInt dst src intBits width unsigned => twoOperands (emitFcvtz · · intBits width unsigned) dst src
  | .floatCast dst src source target => twoOperands (emitFcvt · · source target) dst src
  | .movImm dst imm => do return emitMovImm (← asPhysical dst) imm
  | .movRR dst src => do emitMovRR (← asPhysical dst) (← asPhysical src)
  | .ldr dst base offset => do emitLdr (← asPhysical dst) base (← asI32 (context.adjustFpOffset base offset))
  | .str src base offset => do emitStr (← asPhysical src) base (← asI32 (context.adjustFpOffset base offset))
  | .narrowLoad dst base offset width signed => do emitNarrowLoad (← asPhysical dst) base offset width signed
  | .narrowStore src base offset width => do emitNarrowStore (← asPhysical src) base offset width
  | .addRR dst src1 src2 => threeOperands emitAddRR dst src1 src2
  | .addsRR dst src1 src2 => threeOperands emitAddsRR32 dst src1 src2
  | .addsRR64 dst src1 src2 => threeOperands emitAddsRR64 dst src1 src2
  | .addImm dst src imm => do
    let rd ← asPhysical dst
    let rn ← asPhysical src
    let adjusted := context.adjustFpOffset rn imm
    let magnitude ← signedMagnitudeU32 adjusted
    if adjusted < 0 then emitSubImm rd rn magnitude else emitAddImm rd rn magnitude
  | .subRR dst src1 src2 => threeOperands (emitSubRR · · · false) dst src1 src2
  | .subsRR dst src1 src2 => threeOperands emitSubsRR32 dst src1 src2
  | .subsRR64 dst src1 src2 => threeOperands emitSubsRR64 dst src1 src2
  | .subImm dst src imm => do
    let rd ← asPhysical dst
    let rn ← asPhysical src
    let adjusted := context.adjustFpOffset rn (-imm)
    let magnitude ← signedMagnitudeU32 adjusted
    if adjusted ≤ 0 then emitSubImm rd rn magnitude else emitAddImm rd rn magnitude
  | .mulRR dst src1 src2 => threeOperands emitMul dst src1 src2
  | .smullRR dst src1 src2 => threeOperands emitSmull dst src1 src2
  | .umullRR dst src1 src2 => threeOperands emitUmull dst src1 src2
  | .smulhRR dst src1 src2 => threeOperands emitSmulh dst src1 src2
  | .umulhRR dst src1 src2 => threeOperands emitUmulh dst src1 src2
  | .lsr64Imm dst src imm => twoOperands (emitLsrImm · · imm) dst src
  | .asr64Imm dst src imm => twoOperands (emitAsrImm · · imm) dst src
  | .sdivRR dst src1 src2 => threeOperands emitSdiv dst src1 src2
  | .udivRR dst src1 src2 => threeOperands emitUdiv dst src1 src2
  | .sdiv64RR dst src1 src2 => threeOperands emitSdiv64 dst src1 src2
  | .udiv64RR dst src1 src2 => threeOperands emitUdiv64 dst src1 src2
  | .msub dst src1 src2 src3 => do
    return emitMsub (← asPhysical dst) (← asPhysical src1) (← asPhysical src2) (← asPhysical src3)
  | .msub64 dst src1 src2 src3 => do
    return emitMsub64 (← asPhysical dst) (← asPhysical src1) (← asPhysical src2) (← asPhysical src3)
  | .neg dst src => twoOperands (emitSubRR · .xzr · false) dst src
  | .negs dst src => twoOperands (emitSubsRR64 · .xzr ·) dst src
  | .negs32 dst src => twoOperands (emitSubsRR32 · .xzr ·) dst src
  | .andRR dst src1 src2 => threeOperands emitAndRR dst src1 src2
  | .orrRR dst src1 src2 => threeOperands emitOrrRR dst src1 src2
  | .eorRR dst src1 src2 => threeOperands emitEorRR dst src1 src2
  | .eorImm dst src imm => twoOperands (emitEorImm · · imm) dst src
  | .mvnRR dst src => twoOperands emitMvnRR dst src
  | .mvn32RR dst src => twoOperands emitMvn32RR dst src
  | .lslRR dst src1 src2 => threeOperands emitLslvRR dst src1 src2
  | .lsl32RR dst src1 src2 => threeOperands emitLslv32RR dst src1 src2
  | .lsrRR dst src1 src2 => threeOperands emitLsrvRR dst src1 src2
  | .lsr32RR dst src1 src2 => threeOperands emitLsrv32RR dst src1 src2
  | .asrRR dst src1 src2 => threeOperands emitAsrvRR dst src1 src2
  | .asr32RR dst src1 src2 => threeOperands emitAsrv32RR dst src1 src2
  | .cmpRR src1 src2 => twoOperands (emitSubsRR32 .xzr · ·) src1 src2
  | .cmp64RR src1 src2 => twoOperands (emitSubRR .xzr · · true) src1 src2
  | .cmpImm src imm => do emitCmpImm (← asPhysical src) (BitVec.ofInt 32 imm).toNat
  | .cset dst cond => do return emitCset (← asPhysical dst) cond
  | .tstRR src1 src2 => twoOperands (emitAndsRR .xzr · ·) src1 src2
  | .sxtb dst src => twoOperands (emitSbfm · · 0 7) dst src
  | .sxth dst src => twoOperands (emitSbfm · · 0 15) dst src
  | .sxtw dst src => twoOperands (emitSbfm · · 0 31) dst src
  | .uxtw dst src => twoOperands (emitUbfm · · 0 31) dst src
  | .uxtb dst src => twoOperands (emitUbfm · · 0 7) dst src
  | .uxth dst src => twoOperands (emitUbfm · · 0 15) dst src
  | .blr target => do return [opcodeBlr ||| place (← asPhysical target).encoding 5]
  | .ret => do
    let epilogue ← if context.hasFrame then emitEpilogue context else pure []
    return epilogue ++ [opcodeRet]
  | .brk => .ok [opcodeBrk1]
  | .svc imm => .ok [opcodeSvc ||| place (BitVec.ofNat 16 imm) 5]
  | .stpPre src1 src2 offset => do emitStpPre (← asPhysical src1) (← asPhysical src2) offset
  | .ldpPost dst1 dst2 offset => do emitLdpPost (← asPhysical dst1) (← asPhysical dst2) offset
  | .lslImm dst src imm => twoOperands (emitLslImm · · imm) dst src
  | .lsl32Imm dst src imm => twoOperands (emitLsl32Imm · · imm) dst src
  | .lsr32Imm dst src imm => twoOperands (emitLsr32Imm · · imm) dst src
  | .asr32Imm dst src imm => twoOperands (emitAsr32Imm · · imm) dst src
  | .stringConstLen dst stringId => do
    let rd ← asPhysical dst
    match context.strings[stringId]? with
    | some string => return emitMovImm rd string.utf8ByteSize
    | none => .error (.invalidString stringId)
  | .stringConstCap dst _ => do return emitMovImm (← asPhysical dst) 0
  | _ => .error .panic

inductive RelocationKind where
  | call
  | adrp
  | addLo12
  deriving DecidableEq, Repr

inductive RelocationTarget where
  | symbol (symbolId : Nat)
  | string (stringId : Nat)
  deriving DecidableEq, Repr

structure Relocation where
  offset : Nat
  kind : RelocationKind
  target : RelocationTarget
  deriving DecidableEq, Repr

inductive FixupKind where
  | branch
  | condBranch
  deriving DecidableEq, Repr

/-- A pending branch. Conditional ones name their site. -/
structure Fixup where
  offset : Nat
  label : LabelId
  kind : FixupKind
  site : Option Nat
  deriving DecidableEq, Repr

/-- The output of a round with the decisions that outlive it. -/
structure Emitter where
  code : List Word
  relocations : List Relocation
  labels : LabelId → Option Nat
  fixups : List Fixup
  relaxedCondSites : List Bool
  relaxAllCond : Bool
  condSiteCount : Nat
  framelessFrameReference : Bool

namespace Emitter
variable (emitter : Emitter)

def new : Emitter := ⟨[], [], fun _ => none, [], [], false, 0, false⟩

/-- Offsets are in bytes, and every instruction is a word. -/
def offset : Nat := 4 * emitter.code.length

def emit (words : List Word) : Emitter := { emitter with code := emitter.code ++ words }

def relocate (kind : RelocationKind) (target : RelocationTarget) : Emitter :=
  { emitter with relocations := emitter.relocations ++ [⟨emitter.offset, kind, target⟩] }

def fix (label : LabelId) (kind : FixupKind) (site : Option Nat) : Emitter :=
  { emitter with fixups := emitter.fixups ++ [⟨emitter.offset, label, kind, site⟩] }

def emitB (label : LabelId) : Emitter := (emitter.fix label .branch none).emit [opcodeB]

def relaxes (site : Nat) : Bool := emitter.relaxAllCond || emitter.relaxedCondSites[site]?.getD false

def skipOneInst : BitVec 19 := 2

/-- A conditional branch: to its label, or with the opposite word around an
unconditional branch. -/
def emitCond (taken inverted : Word) (label : LabelId) : Emitter :=
  let site := emitter.condSiteCount
  let next := { emitter with condSiteCount := site + 1 }
  if emitter.relaxes site then (next.emit [inverted ||| place skipOneInst 5]).emitB label
  else (next.fix label .condBranch (some site)).emit [taken]

def cbzWord (nonzero : Bool) (rt : Reg) : Word := opcodeCbzX ||| place (BitVec.ofBool nonzero) 24 ||| place rt.encoding 0

def emitCbz (rt : Reg) (label : LabelId) (nonzero : Bool) : Emitter :=
  emitter.emitCond (cbzWord nonzero rt) (cbzWord (!nonzero) rt) label

def bcondWord (cond : BitVec 4) : Word := opcodeBcond ||| place cond 0

def emitBcondRaw (cond : BitVec 4) (label : LabelId) : Except EmitError Emitter :=
  if cond < 0b1110 then .ok (emitter.emitCond (bcondWord cond) (bcondWord (cond ^^^ 1)) label) else .error .panic

/-- The address of a symbol, by its page and the offset in it. -/
def emitAddress (rd : Reg) (target : RelocationTarget) : Emitter :=
  let page := (emitter.relocate .adrp target).emit [opcodeAdrp ||| place rd.encoding 0]
  (page.relocate .addLo12 target).emit [twoReg opcodeAddImmX rd rd]

end Emitter

/-- The base of an operand that the frame pointer adjustment sees. -/
def adjustedBase : Aarch64Inst → Option Reg
  | .floatLoad _ base _ _ | .floatStore base _ _ _ | .ldr _ base _ | .str _ base _ => some base
  | .addImm _ (.physical base) _ | .subImm _ (.physical base) _ => some base
  | _ => none

def emitInst (context : EmitContext) (emitter : Emitter) (inst : Aarch64Inst) : Except EmitError Emitter := do
  assertFloatOperandClasses inst
  match inst with
  | .cbz src label => return emitter.emitCbz (← asPhysical src) label false
  | .cbnz src label => return emitter.emitCbz (← asPhysical src) label true
  | .b label => return emitter.emitB label
  | .bCond cond label => emitter.emitBcondRaw cond.encoding label
  | .bvs label => emitter.emitBcondRaw 6 label
  | .bvc label => emitter.emitBcondRaw 7 label
  | .label id => return { emitter with labels := Function.update emitter.labels id (some emitter.offset) }
  | .bl symbolId _ => return (emitter.relocate .call (.symbol symbolId)).emit [opcodeBl]
  | .symbolAddr dst symbolId => return emitter.emitAddress (← asPhysical dst) (.symbol symbolId)
  | .stringConstPtr dst stringId => return emitter.emitAddress (← asPhysical dst) (.string stringId)
  | inst =>
    let words ← encodeInst context inst
    let names := context.frameless && adjustedBase inst = some .fp
    return { emitter with
      code := emitter.code ++ words
      framelessFrameReference := emitter.framelessFrameReference || names }

def isIndexed : Aarch64Inst → Bool
  | .ldrIndexed .. | .strIndexed .. | .ldrIndexedOffset .. | .strIndexedOffset .. | .narrowLoadIndexed ..
  | .narrowStoreIndexed .. => true
  | _ => false

/-- Everything once, leaving branches pending. -/
def emitBody (context : EmitContext) (emitter : Emitter) : Except EmitError Emitter := do
  match context.instructions.findIdx? isIndexed with
  | some index => .error (.notLowered index)
  | none =>
    let prologue ← if context.hasFrame then emitPrologue context else pure []
    let emitted ← context.instructions.foldlM (emitInst context) (emitter.emit prologue)
    if emitted.framelessFrameReference then .error .framelessReference else return emitted

/-- The distance of a fixup in instructions. -/
def fixupDistance (emitter : Emitter) (fixup : Fixup) : Except EmitError Int :=
  match emitter.labels fixup.label with
  | none => .error (.undefinedLabel fixup.label)
  | some target =>
    if ((target : Int) - fixup.offset) % 4 = 0 then .ok (((target : Int) - fixup.offset) / 4) else .error .panic

abbrev CondBranchRange (offset : Int) : Prop := -2 ^ 18 ≤ offset ∧ offset < 2 ^ 18
abbrev BranchRange (offset : Int) : Prop := -2 ^ 25 ≤ offset ∧ offset < 2 ^ 25

def outOfRangeCondSites (emitter : Emitter) : List Fixup → Except EmitError (List Nat)
  | [] => .ok []
  | fixup :: rest =>
    if fixup.kind = .condBranch then do
      let distance ← fixupDistance emitter fixup
      let others ← outOfRangeCondSites emitter rest
      return if CondBranchRange distance then others else fixup.site.toList ++ others
    else outOfRangeCondSites emitter rest

def branchOffsetMask : Word := 0x03FFFFFF
def branchOpcodeMask : Word := 0xFC000000
def condBranchOffsetMask : Word := 0x7FFFF
def condBranchOpcodeMask : Word := 0xFF00001F

def patchBranch (inst : Word) (offset : Int) : Word := inst &&& branchOpcodeMask ||| BitVec.ofInt 32 offset &&& branchOffsetMask

def patchCondBranch (inst : Word) (offset : Int) : Word :=
  inst &&& condBranchOpcodeMask ||| (BitVec.ofInt 32 offset &&& condBranchOffsetMask) <<< 5

def applyFixup (emitter : Emitter) (code : List Word) (fixup : Fixup) : Except EmitError (List Word) := do
  let offset ← fixupDistance emitter fixup
  match fixup.kind with
  | .branch =>
    if BranchRange offset then return code.modify (fixup.offset / 4) (patchBranch · offset)
    else .error (.branchRange offset fixup.label)
  | .condBranch =>
    if CondBranchRange offset then return code.modify (fixup.offset / 4) (patchCondBranch · offset)
    else .error (.condBranchRange offset fixup.label)

def applyFixups (emitter : Emitter) : Except EmitError (List Word) :=
  emitter.fixups.foldlM (applyFixup emitter) emitter.code

def measuredRounds : Nat := 4

def relaxSite (sites : List Bool) (site : Nat) : List Bool :=
  (sites ++ List.replicate (site + 1 - sites.length) false).set site true

/-- The next round starts clean but for the relaxation decisions. -/
def resetRound (emitter : Emitter) : Emitter :=
  { Emitter.new with relaxedCondSites := emitter.relaxedCondSites, relaxAllCond := emitter.relaxAllCond }

/-- The rounds of relaxation, from the given one on; none when the fuel is out. -/
def emitWithRelaxation (context : EmitContext) : (fuel round : Nat) → Emitter → Option (Except EmitError (List Word))
  | 0, _, _ => none
  | fuel + 1, round, start =>
    match emitBody context start with
    | .error error => some (.error error)
    | .ok emitter =>
      match outOfRangeCondSites emitter emitter.fixups with
      | .error error => some (.error error)
      | .ok [] => some (applyFixups emitter)
      | .ok sites =>
        if emitter.relaxAllCond then some (.error (.stillOutOfRange sites.length))
        else
          let relaxed := if round ≥ measuredRounds then { emitter with relaxAllCond := true }
            else { emitter with relaxedCondSites := sites.foldl relaxSite emitter.relaxedCondSites }
          emitWithRelaxation context fuel (round + 1) (resetRound relaxed)

end Rue.Codegen.Aarch64
