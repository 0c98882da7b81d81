import Rue.Cfg.Operands
import Rue.Lib.FixedInt
import Rue.Lib.Simulation

/-! What a control-flow graph does when it runs. Integer operations, slots and
control flow are fixed; aggregates, floats, calls, intrinsics and destructors
are what the backend makes of them. -/

namespace Rue

open Cfg

inductive Value (Datum : Type) where
  | int (image : BitVec 64)
  | bool (value : Bool)
  | datum (value : Datum)

def Value.unit {Datum : Type} : Value Datum := .int 0

inductive Root where
  | local' (slot : Nat)
  | param (slot : Nat)
  deriving DecidableEq

inductive Base (Datum : Type) where
  | root (root : Root)
  | accessor (value : Value Datum)
  | indirect (value : Value Datum)

inductive Step (Datum : Type) where
  | field (structId fieldIndex : Nat)
  | index (arrayType : Ty) (value : Value Datum)

structure Location (Datum : Type) where
  base : Base Datum
  baseType : Ty
  steps : List (Step Datum)

inductive Cfg.Operand (Datum : Type) where
  | value (value : Value Datum)
  | location (location : Location Datum)

inductive TrapKind where
  | overflow
  | divisionByZero
  | castOverflow
  | bounds
  | fault
  | unreachable
  | malformed
  | raised (code : Nat)
  deriving DecidableEq

/-- An observable operation with its operands; the shape names no value. -/
structure Cfg.Event (Datum : Type) where
  shape : CfgInstData
  ty : Ty
  operands : List (Ty × Operand Datum)

/-- The slots an operation outside the function can reach. -/
abbrev View (Datum : Type) := Root → Ty → Option (Value Datum)

inductive Cfg.Effect (Datum World : Type) where
  | done (value : Value Datum) (cells : Root → Ty → Value Datum) (world : World)
  | trap (kind : TrapKind) (world : World)

structure Backend (Datum World : Type) where
  float : Ty → BitVec 64 → Value Datum
  string : Ty → Nat → Value Datum
  function : Ty → Nat → Value Datum
  image : Datum → BitVec 64
  truth : Datum → Bool
  binary : BinaryOp → Ty → Ty → Value Datum → Value Datum → Value Datum
  unary : UnaryOp → Ty → Value Datum → Value Datum
  cast : Ty → Ty → Value Datum → Value Datum
  structInit : Nat → Ty → List (Value Datum) → Value Datum
  arrayInit : ArrayInitShape → Ty → List (Value Datum) → Value Datum
  enumVariant : Nat → Nat → Ty → List (Value Datum) → Value Datum
  enumPayloadGet : Nat → Nat → Nat → Value Datum → Value Datum
  outOfBounds : Ty → Value Datum → Bool
  project : Value Datum → List (Step Datum) → Ty → Value Datum
  update : Value Datum → List (Step Datum) → Value Datum → Value Datum
  faults : Location Datum → View Datum → World → Bool
  fetch : Location Datum → Ty → View Datum → World → Value Datum
  perform : Event Datum → View Datum → World → Effect Datum World

structure Memory (Datum World : Type) where
  cells : Root → Ty → Value Datum
  exposed : Root → Bool
  world : World

def Ty.integer : Ty → Option Lib.IntFormat
  | .i8 => some ⟨8, true, by decide, by decide⟩
  | .i16 => some ⟨16, true, by decide, by decide⟩
  | .i32 => some ⟨32, true, by decide, by decide⟩
  | .i64 => some ⟨64, true, by decide, by decide⟩
  | .u8 => some ⟨8, false, by decide, by decide⟩
  | .u16 => some ⟨16, false, by decide, by decide⟩
  | .u32 => some ⟨32, false, by decide, by decide⟩
  | .u64 => some ⟨64, false, by decide, by decide⟩
  | _ => none

def Ty.isFloat : Ty → Bool
  | .f32 | .f64 => true
  | _ => false

def Ty.is64Bit : Ty → Bool
  | .i64 | .u64 => true
  | _ => false

/-- The width at which a switch compares its scrutinee against a case. -/
def Ty.switchCompareWidth (ty : Ty) : Nat := if ty.is64Bit then 64 else 32

variable {Datum World : Type}

/-- The trap when an integer operation has no result. -/
def orTrap (kind : TrapKind) : Option (BitVec 64) → Except TrapKind (Value Datum)
  | some image => .ok (.int image)
  | none => .error kind

def BinaryOp.isComparison : BinaryOp → Bool
  | .eq | .ne | .lt | .gt | .le | .ge => true
  | _ => false

/-- An integer operation on images, in the format of its operands. -/
def evalInteger (op : BinaryOp) (format : Lib.IntFormat) (a b : BitVec 64) : Except TrapKind (Value Datum) :=
  let x := format.meaning a
  let y := format.meaning b
  match op with
  | .add => orTrap .overflow (format.checked (x + y))
  | .sub => orTrap .overflow (format.checked (x - y))
  | .mul => orTrap .overflow (format.checked (x * y))
  | .wrappingAdd => .ok (.int (format.canonical (a + b)))
  | .wrappingSub => .ok (.int (format.canonical (a - b)))
  | .wrappingMul => .ok (.int (format.canonical (a * b)))
  | .div => if y = 0 then .error .divisionByZero else orTrap .overflow (format.quotient x y)
  | .mod => if y = 0 then .error .divisionByZero else orTrap .overflow (format.remainder x y)
  | .eq => .ok (.bool (x = y))
  | .ne => .ok (.bool (x ≠ y))
  | .lt => .ok (.bool (x < y))
  | .gt => .ok (.bool (x > y))
  | .le => .ok (.bool (x ≤ y))
  | .ge => .ok (.bool (x ≥ y))
  | .bitAnd => .ok (.int (format.canonical (a &&& b)))
  | .bitOr => .ok (.int (format.canonical (a ||| b)))
  | .bitXor => .ok (.int (format.canonical (a ^^^ b)))
  | .shl => .ok (.int (format.shiftLeft a b))
  | .shr => .ok (.int (format.shiftRight a b))

namespace Backend

variable (backend : Backend Datum World)

/-- The 64-bit image of a value; of an aggregate, its discriminant. -/
def imageOf : Value Datum → BitVec 64
  | .int image => image
  | .bool value => if value then 1 else 0
  | .datum value => backend.image value

def truthOf : Value Datum → Bool
  | .int image => image ≠ 0
  | .bool value => value
  | .datum value => backend.truth value

def constant (ty : Ty) (image : BitVec 64) : Value Datum :=
  if ty.isFloat then backend.float ty image else .int image

/-- Operations on what is no integer. Tags and addresses compare by image. -/
def evalOther (op : BinaryOp) (operandTy ty : Ty) (a b : Value Datum) : Value Datum :=
  match op, a, b with
  | .eq, .int x, .int y => .bool (x = y)
  | .ne, .int x, .int y => .bool (x ≠ y)
  | .eq, .bool x, .bool y => .bool (x = y)
  | .ne, .bool x, .bool y => .bool (x ≠ y)
  | _, _, _ => backend.binary op operandTy ty a b

/-- A comparison is taken at its operands' type, arithmetic at its result's. -/
def evalBinary (op : BinaryOp) (operandTy ty : Ty) (a b : Value Datum) : Except TrapKind (Value Datum) :=
  match (if op.isComparison then operandTy else ty).integer with
  | some format => evalInteger op format (backend.imageOf a) (backend.imageOf b)
  | none => .ok (backend.evalOther op operandTy ty a b)

def evalUnary (op : UnaryOp) (ty : Ty) (a : Value Datum) : Except TrapKind (Value Datum) :=
  match op, ty.integer with
  | .not, _ => .ok (.bool (!backend.truthOf a))
  | .neg, some format => orTrap .overflow (format.checked (-format.meaning (backend.imageOf a)))
  | .bitNot, some format => .ok (.int (format.canonical (~~~backend.imageOf a)))
  | op, none => .ok (backend.unary op ty a)

def evalCast (fromTy ty : Ty) (a : Value Datum) : Except TrapKind (Value Datum) :=
  match fromTy.integer, ty.integer with
  | some source, some target => orTrap .castOverflow (target.checked (source.meaning (backend.imageOf a)))
  | _, _ => .ok (backend.cast fromTy ty a)

/-- A variant without payload is its index. -/
def evalVariant (enumId variantIndex : Nat) (ty : Ty) (payload : List (Value Datum)) : Value Datum :=
  if payload.isEmpty then .int (BitVec.ofNat 64 variantIndex) else backend.enumVariant enumId variantIndex ty payload

end Backend

def PlaceBase.locate (env : CfgValue → Value Datum) : PlaceBase → Base Datum
  | .local' slot => .root (.local' slot)
  | .param slot => .root (.param slot)
  | .accessor value => .accessor (env value)
  | .indirect value => .indirect (env value)

def Projection.locate (env : CfgValue → Value Datum) : Projection → Step Datum
  | .field structId fieldIndex => .field structId fieldIndex
  | .index arrayType value => .index arrayType (env value)

def Place.locate (env : CfgValue → Value Datum) (place : Place) : Location Datum :=
  ⟨place.base.locate env, place.baseType, place.projections.map (Projection.locate env)⟩

def PlaceBase.isIndirect : PlaceBase → Bool
  | .indirect _ => true
  | _ => false

def Projection.isIndex : Projection → Bool
  | .index _ _ => true
  | .field _ _ => false

namespace CfgInstData

/-- May panic or fault, as far as the optimizer is concerned. -/
def mayTrap : CfgInstData → Bool
  | .binary op _ _ => op ∈ [.add, .sub, .mul, .div, .mod]
  | .unary op _ => op = .neg
  | .intCast _ _ => true
  | .placeRead place => place.base.isIndirect || place.projections.any Projection.isIndex
  | _ => false

def hasObservableSideEffect : CfgInstData → Bool
  | .call .. | .callIndirect .. | .accessorCall .. | .intrinsic .. => true
  | .alloc .. | .store .. | .paramStore .. | .placeWrite .. => true
  | .drop _ | .storageLive .. | .storageDead .. | .moveOut _ => true
  | _ => false

/-- The operands with what is taken of each when the instruction runs. An
intrinsic that takes an address takes it of its first operand. -/
def operandUses : CfgInstData → List (CfgValue × CfgUseKind)
  | .intrinsic operation _ (place :: args) =>
    (place, if operation.takesPlaceAddress then .address else .value) :: reads args
  | data => data.usesKinded

end CfgInstData

namespace Step

def outOfBounds (backend : Backend Datum World) : Step Datum → Bool
  | .index arrayType value => backend.outOfBounds arrayType value
  | .field _ _ => false

end Step

namespace Memory

variable (memory : Memory Datum World)

def view : View Datum := fun root ty => if memory.exposed root then some (memory.cells root ty) else none

def write (root : Root) (ty : Ty) (value : Value Datum) : Memory Datum World :=
  { memory with cells := fun other otherTy => if other = root ∧ otherTy = ty then value else memory.cells other otherTy }

def expose (roots : List Root) : Memory Datum World :=
  { memory with exposed := fun root => memory.exposed root || root ∈ roots }

def absorb (cells : Root → Ty → Value Datum) (world : World) : Memory Datum World :=
  { memory with
    cells := fun root ty => if memory.exposed root then cells root ty else memory.cells root ty
    world := world }

end Memory

/-- The slot whose address an operand gives away. -/
def Cfg.Operand.root? : Operand Datum → Option Root
  | .location ⟨.root root, _, _⟩ => some root
  | _ => none

namespace Cfg

variable (cfg : Cfg) (env : CfgValue → Value Datum)

/-- What a by-reference operand names: the place it reads, else a temporary. -/
def placeOf (value : CfgValue) : Operand Datum :=
  match (cfg.inst value).data with
  | .load slot => .location ⟨.root (.local' slot), (cfg.inst value).ty, []⟩
  | .param index => .location ⟨.root (.param index), (cfg.inst value).ty, []⟩
  | .placeRead place => .location (place.locate env)
  | _ => .value (env value)

def operand (use : CfgValue × CfgUseKind) : Ty × Operand Datum :=
  ((cfg.inst use.1).ty, match use.2 with | .value => .value (env use.1) | .address => cfg.placeOf env use.1)

def event (value : CfgValue) : Event Datum :=
  ⟨(cfg.inst value).data.mapUses fun _ => 0, (cfg.inst value).ty,
    (cfg.inst value).data.operandUses.map (cfg.operand env)⟩

end Cfg

inductive Cfg.Execution (Datum World : Type) where
  | done (value : Value Datum) (memory : Memory Datum World)
  | trap (kind : TrapKind) (world : World)

def Cfg.Execution.ofResult (memory : Memory Datum World) : Except TrapKind (Value Datum) → Execution Datum World
  | .ok value => .done value memory
  | .error kind => .trap kind memory.world

namespace Backend

variable (backend : Backend Datum World)

def readPlace (mayTrap : Bool) (location : Location Datum) (ty : Ty) (memory : Memory Datum World) :
    Execution Datum World :=
  if mayTrap && location.steps.any (Step.outOfBounds backend) then .trap .bounds memory.world
  else match location.base with
    | .root root => .done (backend.project (memory.cells root location.baseType) location.steps ty) memory
    | .accessor _ | .indirect _ =>
      if mayTrap && backend.faults location memory.view memory.world then .trap .fault memory.world
      else .done (backend.fetch location ty memory.view memory.world) memory

/-- An operation outside the function, which first gets the addresses passed to it. -/
def invoke (event : Event Datum) (memory : Memory Datum World) : Execution Datum World :=
  let exposed := memory.expose (event.operands.filterMap fun operand => operand.2.root?)
  match backend.perform event exposed.view exposed.world with
  | .done value cells world => .done value (exposed.absorb cells world)
  | .trap kind world => .trap kind world

def writePlace (event : Event Datum) (location : Location Datum) (value : Value Datum) (memory : Memory Datum World) :
    Execution Datum World :=
  if location.steps.any (Step.outOfBounds backend) then .trap .bounds memory.world
  else match location.base with
    | .root root =>
      .done .unit (memory.write root location.baseType
        (backend.update (memory.cells root location.baseType) location.steps value))
    | .accessor _ | .indirect _ => backend.invoke event memory

def execute (cfg : Cfg) (env : CfgValue → Value Datum) (memory : Memory Datum World) (value : CfgValue) :
    Execution Datum World :=
  let inst := cfg.inst value
  let typeOf (operand : CfgValue) := (cfg.inst operand).ty
  match inst.data with
  | .const image => .done (backend.constant inst.ty image) memory
  | .boolConst value => .done (.bool value) memory
  | .stringConst index => .done (backend.string inst.ty index) memory
  | .param index => .done (memory.cells (.param index) inst.ty) memory
  | .blockParam _ => .done (env value) memory
  | .fnAddr name => .done (backend.function inst.ty name) memory
  | .binary op lhs rhs => Execution.ofResult memory (backend.evalBinary op (typeOf lhs) inst.ty (env lhs) (env rhs))
  | .unary op operand => Execution.ofResult memory (backend.evalUnary op inst.ty (env operand))
  | .intCast operand fromTy => Execution.ofResult memory (backend.evalCast fromTy inst.ty (env operand))
  | .structInit structId fields => .done (backend.structInit structId inst.ty (fields.map env)) memory
  | .arrayInit elements shape => .done (backend.arrayInit shape inst.ty (elements.map env)) memory
  | .enumVariant enumId variantIndex payload =>
    .done (backend.evalVariant enumId variantIndex inst.ty (payload.map env)) memory
  | .enumPayloadGet base enumId variantIndex fieldIndex =>
    .done (backend.enumPayloadGet enumId variantIndex fieldIndex (env base)) memory
  | .load slot => .done (memory.cells (.local' slot) inst.ty) memory
  | .placeRead place => backend.readPlace inst.data.mayTrap (place.locate env) inst.ty memory
  | .alloc slot stored | .store slot stored =>
    .done .unit (memory.write (.local' slot) (typeOf stored) (env stored))
  | .paramStore slot stored => .done .unit (memory.write (.param slot) (typeOf stored) (env stored))
  | .placeWrite place stored => backend.writePlace (cfg.event env value) (place.locate env) (env stored) memory
  | .call .. | .accessorCall .. | .callIndirect .. | .intrinsic .. | .drop _ =>
    backend.invoke (cfg.event env value) memory
  | .storageLive .. | .storageDead .. | .moveOut _ => .done .unit memory

end Backend

inductive Cfg.Ending (Datum World : Type) where
  | returned (value : Option (Value Datum)) (memory : Memory Datum World)
  | trapped (kind : TrapKind) (world : World)

/-- A point of a run: the rest of the block, the values and the memory. -/
structure Config (Datum World : Type) where
  block : BlockId
  rest : List CfgValue
  env : CfgValue → Value Datum
  memory : Memory Datum World

namespace Cfg

variable (cfg : Cfg)

def bindParams (params : List (CfgValue × Ty)) (values : List (Value Datum)) (env : CfgValue → Value Datum) :
    CfgValue → Value Datum :=
  (params.zip values).foldl (fun env pair => Function.update env pair.1.1 pair.2) env

/-- The start of a block, with its parameters bound. -/
def enter (target : BlockId) (values : List (Value Datum)) (env : CfgValue → Value Datum)
    (memory : Memory Datum World) : Config Datum World :=
  ⟨target, (cfg.block target).insts, bindParams (cfg.block target).params values env, memory⟩

/-- The first case that agrees with the scrutinee in its low bits. -/
def selectCase (width : Nat) (image : BitVec 64) (cases : List (BitVec 64 × BlockId)) (default : BlockId) : BlockId :=
  ((cases.find? fun case => case.1.setWidth width = image.setWidth width).map Prod.snd).getD default

inductive Exit (Datum World : Type) where
  | jump (target : BlockId) (values : List (Value Datum))
  | stop (ending : Ending Datum World)

def exit (backend : Backend Datum World) (terminator : Terminator) (env : CfgValue → Value Datum)
    (memory : Memory Datum World) : Exit Datum World :=
  match terminator with
  | .goto target args => .jump target (args.map env)
  | .branch cond thenBlock thenArgs elseBlock elseArgs =>
    if backend.truthOf (env cond) then .jump thenBlock (thenArgs.map env) else .jump elseBlock (elseArgs.map env)
  | .switch scrutinee cases default =>
    .jump (selectCase (cfg.inst scrutinee).ty.switchCompareWidth (backend.imageOf (env scrutinee)) cases default) []
  | .return' value => .stop (.returned (value.map env) memory)
  | .unreachable => .stop (.trapped .unreachable memory.world)
  | .none => .stop (.trapped .malformed memory.world)

def terminate (backend : Backend Datum World) (terminator : Terminator) (env : CfgValue → Value Datum)
    (memory : Memory Datum World) : Lib.Move (Config Datum World) (Event Datum) (Ending Datum World) :=
  match cfg.exit backend terminator env memory with
  | .jump target values => .step [] (cfg.enter target values env memory)
  | .stop ending => .stop [] ending

def advance (backend : Backend Datum World) :
    Config Datum World → Lib.Move (Config Datum World) (Event Datum) (Ending Datum World)
  | ⟨block, value :: rest, env, memory⟩ =>
    let events := if (cfg.inst value).data.hasObservableSideEffect then [cfg.event env value] else []
    match backend.execute cfg env memory value with
    | .done result memory => .step events ⟨block, rest, Function.update env value result, memory⟩
    | .trap kind world => .stop events (.trapped kind world)
  | ⟨block, [], env, memory⟩ => cfg.terminate backend (cfg.block block).terminator env memory

/-- Before the function runs, only writable parameters are reached from outside. -/
def start (env : CfgValue → Value Datum) (cells : Root → Ty → Value Datum) (world : World) : Config Datum World where
  block := cfg.entry
  rest := (cfg.block cfg.entry).insts
  env := env
  memory :=
    { cells := cells
      exposed := fun root => match root with
        | .param slot => cfg.isParamWritable slot
        | .local' _ => false
      world := world }

/-- The traces and endings the graph shows on given inputs. -/
def Shows (backend : Backend Datum World) (env : CfgValue → Value Datum) (cells : Root → Ty → Value Datum)
    (world : World) (trace : List (Event Datum)) (ending : Option (Ending Datum World)) : Prop :=
  Lib.Observes (cfg.advance backend) (cfg.start env cells world) trace ending

end Cfg

end Rue
