import Mathlib.Logic.Function.Basic

/-! The control-flow graph of one function: its value arena, its blocks and the
facts recorded about its slots. -/

namespace Rue

abbrev CfgValue := Nat

abbrev BlockId := Nat

inductive Ty where
  | i8
  | i16
  | i32
  | i64
  | u8
  | u16
  | u32
  | u64
  | bool
  | unit
  | struct (id : Nat)
  | enum (id : Nat)
  | array (id : Nat)
  | ptrConst (id : Nat)
  | ptrMut (id : Nat)
  | function (id : Nat)
  | module' (id : Nat)
  | error
  | never
  | comptimeType
  | f32
  | f64
  | comptimeFloat
  deriving DecidableEq

inductive PlaceBase where
  | local' (slot : Nat)
  | param (slot : Nat)
  | accessor (value : CfgValue)
  | indirect (value : CfgValue)
  deriving DecidableEq

inductive Projection where
  | field (structId fieldIndex : Nat)
  | index (arrayType : Ty) (index : CfgValue)
  deriving DecidableEq

/-- A memory location: a root and the projections from it. -/
structure Place where
  base : PlaceBase
  baseType : Ty
  projections : List Projection
  deriving DecidableEq

inductive CfgArgMode where
  | normal
  | inout
  | borrow
  deriving DecidableEq

structure CfgCallArg where
  value : CfgValue
  mode : CfgArgMode
  deriving DecidableEq

def CfgCallArg.isByRef (arg : CfgCallArg) : Bool := arg.mode = .inout || arg.mode = .borrow

inductive BinaryOp where
  | add
  | sub
  | mul
  | wrappingAdd
  | wrappingSub
  | wrappingMul
  | div
  | mod
  | eq
  | ne
  | lt
  | gt
  | le
  | ge
  | bitAnd
  | bitOr
  | bitXor
  | shl
  | shr
  deriving DecidableEq

inductive UnaryOp where
  | neg
  | not
  | bitNot
  deriving DecidableEq

/-- The three intrinsics that take the address of a place, and all others. -/
inductive IntrinsicOperation where
  | raw
  | rawMut
  | fieldPtr
  | other (code : Nat)
  deriving DecidableEq

def IntrinsicOperation.takesPlaceAddress : IntrinsicOperation → Bool
  | .raw | .rawMut | .fieldPtr => true
  | .other _ => false

inductive ArrayInitShape where
  | elementwise
  | repeat'
  deriving DecidableEq

inductive CfgInstData where
  | const (image : BitVec 64)
  | boolConst (value : Bool)
  | stringConst (index : Nat)
  | param (index : Nat)
  | blockParam (index : Nat)
  | binary (op : BinaryOp) (lhs rhs : CfgValue)
  | unary (op : UnaryOp) (operand : CfgValue)
  | alloc (slot : Nat) (init : CfgValue)
  | load (slot : Nat)
  | store (slot : Nat) (value : CfgValue)
  | paramStore (paramSlot : Nat) (value : CfgValue)
  | placeRead (place : Place)
  | placeWrite (place : Place) (value : CfgValue)
  | call (runtime : Option Nat) (name : Nat) (args : List CfgCallArg)
  | accessorCall (name : Nat) (args : List CfgCallArg)
  | fnAddr (name : Nat)
  | callIndirect (callee : CfgValue) (args : List CfgCallArg)
  | intrinsic (operation : IntrinsicOperation) (name : Nat) (args : List CfgValue)
  | structInit (structId : Nat) (fields : List CfgValue)
  | arrayInit (elements : List CfgValue) (shape : ArrayInitShape)
  | enumVariant (enumId variantIndex : Nat) (payload : List CfgValue)
  | enumPayloadGet (base : CfgValue) (enumId variantIndex fieldIndex : Nat)
  | intCast (value : CfgValue) (fromTy : Ty)
  | drop (value : CfgValue)
  | storageLive (slot : Nat) (localTy : Ty)
  | storageDead (slot : Nat) (localTy : Ty)
  | moveOut (place : Place)
  deriving DecidableEq

structure CfgInst where
  data : CfgInstData
  ty : Ty
  deriving DecidableEq

inductive Terminator where
  | goto (target : BlockId) (args : List CfgValue)
  | branch (cond : CfgValue) (thenBlock : BlockId) (thenArgs : List CfgValue) (elseBlock : BlockId)
      (elseArgs : List CfgValue)
  | switch (scrutinee : CfgValue) (cases : List (BitVec 64 × BlockId)) (default : BlockId)
  | return' (value : Option CfgValue)
  | unreachable
  | none
  deriving DecidableEq

def Terminator.successors : Terminator → List BlockId
  | .goto target _ => [target]
  | .branch _ thenBlock _ elseBlock _ => [thenBlock, elseBlock]
  | .switch _ cases default => cases.map Prod.snd ++ [default]
  | .return' _ | .unreachable | .none => []

structure BasicBlock where
  id : BlockId
  params : List (CfgValue × Ty)
  insts : List CfgValue
  terminator : Terminator
  deriving DecidableEq

structure Cfg where
  entry : BlockId
  blockCount : Nat
  block : BlockId → BasicBlock
  valueCount : Nat
  inst : CfgValue → CfgInst
  numLocals : Nat
  numParams : Nat
  isParamByRef : Nat → Bool
  isParamWritable : Nat → Bool
  isAddressTaken : Nat → Bool
  isParamAddressTaken : Nat → Bool
  isOwnershipBoundaryValue : CfgValue → Bool

/-- What the passes ask the type pool about a type. -/
structure TypePool where
  slotSpan : Ty → Nat
  needsDrop : Ty → Bool

namespace Cfg

def succs (cfg : Cfg) (block : BlockId) : List BlockId := (cfg.block block).terminator.successors

/-- Predecessors of a block, once for each edge. -/
def preds (cfg : Cfg) (block : BlockId) : List BlockId :=
  (List.range cfg.blockCount).flatMap fun source =>
    ((cfg.succs source).filter (· = block)).map fun _ => source

def blocks (cfg : Cfg) : List BasicBlock := (List.range cfg.blockCount).map cfg.block

/-- The instructions attached to some block, in block order. -/
def attached (cfg : Cfg) : List CfgValue := cfg.blocks.flatMap BasicBlock.insts

@[simp] theorem mem_attached {cfg : Cfg} {value : CfgValue} :
    value ∈ cfg.attached ↔ ∃ block < cfg.blockCount, value ∈ (cfg.block block).insts := by
  simp [attached, blocks]

theorem mem_preds {cfg : Cfg} {source target : BlockId} :
    source ∈ cfg.preds target ↔ source < cfg.blockCount ∧ target ∈ cfg.succs source := by
  simp only [preds, List.mem_flatMap, List.mem_range, List.mem_map, List.mem_filter, decide_eq_true_eq]
  constructor
  · rintro ⟨other, inside, edge, ⟨member, rfl⟩, rfl⟩
    exact ⟨inside, member⟩
  · rintro ⟨inside, member⟩
    exact ⟨source, inside, target, ⟨member, rfl⟩, rfl⟩

end Cfg

end Rue
