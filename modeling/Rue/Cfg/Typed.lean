import Rue.Cfg.Semantics
import Rue.Cfg.Verified

/-! The types that the front end gives a graph, and the values they promise as far
as the fixed operations can tell. -/

namespace Rue

variable {Datum World : Type}

/-- An integer is in canonical form, a truth value is one; of other types nothing
is asked. -/
structure Ty.Has (ty : Ty) (value : Value Datum) : Prop where
  integer : ∀ format, ty.integer = some format → ∃ image, value = .int image ∧ format.canonical image = image
  truth : ty = .bool → ∃ holds, value = .bool holds

def Ty.isPlain (ty : Ty) : Prop := ty.integer = none ∧ ty ≠ .bool

def Ty.isNumeric (ty : Ty) : Prop := ty.integer ≠ none ∨ ty.isFloat = true

instance (ty : Ty) : Decidable ty.isPlain := inferInstanceAs (Decidable (_ ∧ _))

instance (ty : Ty) : Decidable ty.isNumeric := inferInstanceAs (Decidable (_ ∨ _))

/-- The backend makes values of the types it is asked for. -/
structure Backend.Typed (fieldTy : Nat → Nat → Nat → Ty) (backend : Backend Datum World) : Prop where
  string : ∀ (ty : Ty) index, ty.Has (backend.string ty index)
  function : ∀ (ty : Ty) name, ty.Has (backend.function ty name)
  binary : ∀ op operandTy (ty : Ty) a b, ty.Has (backend.binary op operandTy ty a b)
  unary : ∀ op (ty : Ty) a, ty.Has (backend.unary op ty a)
  cast : ∀ fromTy (ty : Ty) a, ty.Has (backend.cast fromTy ty a)
  structInit : ∀ structId (ty : Ty) fields, ty.Has (backend.structInit structId ty fields)
  arrayInit : ∀ shape (ty : Ty) elements, ty.Has (backend.arrayInit shape ty elements)
  enumVariant : ∀ enumId variantIndex (ty : Ty) payload, ty.Has (backend.enumVariant enumId variantIndex ty payload)
  payload : ∀ enumId variantIndex fieldIndex base,
    (fieldTy enumId variantIndex fieldIndex).Has (backend.enumPayloadGet enumId variantIndex fieldIndex base)
  project : ∀ whole steps (ty : Ty), (steps = [] → ty.Has whole) → ty.Has (backend.project whole steps ty)
  update : ∀ (ty : Ty) whole steps value, ty.Has whole → (steps = [] → ty.Has value) →
    ty.Has (backend.update whole steps value)
  fetch : ∀ location (ty : Ty) view world, ty.Has (backend.fetch location ty view world)
  perform : ∀ event view world value cells after, (∀ root (ty : Ty) held, view root ty = some held → ty.Has held) →
    backend.perform event view world = .done value cells after → event.ty.Has value ∧ ∀ root (ty : Ty), ty.Has (cells root ty)

namespace Cfg

variable (cfg : Cfg)

/-- What a by-reference operand must be: the read of a place. -/
def IsPlaceRead (value : CfgValue) : Prop :=
  match (cfg.inst value).data with
  | .load _ | .param _ | .placeRead _ => True
  | _ => False

/-- An instruction that agrees with the types of its operands. -/
def InstTyped (fieldTy : Nat → Nat → Nat → Ty) (inst : CfgInst) : Prop :=
  let typeOf (operand : CfgValue) := (cfg.inst operand).ty
  match inst.data with
  | .const image => ∀ format, inst.ty.integer = some format → format.canonical image = image
  | .boolConst _ => inst.ty = .bool
  | .binary op lhs rhs =>
    if op.isComparison then inst.ty = .bool else typeOf lhs = inst.ty ∧ typeOf rhs = inst.ty ∧ inst.ty.isNumeric
  | .unary op operand => typeOf operand = inst.ty ∧ (op = .not → inst.ty = .bool)
  | .enumVariant _ _ _ => inst.ty.isPlain
  | .enumPayloadGet _ enumId variantIndex fieldIndex => inst.ty = fieldTy enumId variantIndex fieldIndex
  | .placeRead place => place.projections = [] → place.baseType = inst.ty ∨ inst.ty.isPlain
  | .placeWrite place value => inst.ty = .unit ∧ (place.projections = [] → typeOf value = place.baseType)
  | .alloc _ _ | .store _ _ | .paramStore _ _ | .storageLive _ _ | .storageDead _ _ | .moveOut _ => inst.ty = .unit
  | _ => True

/-- A constant no truth value is made of: what stands where a negation was. -/
def IsPlaceholder (value : CfgValue) : Prop := ∃ image, cfg.inst value = ⟨.const image, .bool⟩

/-- What the front end promises of the reachable blocks: instructions agree with
their operands, by-reference operands are places, and no placeholder is used. -/
structure WellTyped (fieldTy : Nat → Nat → Nat → Ty) : Prop where
  insts : ∀ block, cfg.Live block → ∀ value ∈ (cfg.block block).insts, cfg.InstTyped fieldTy (cfg.inst value)
  places : ∀ block, cfg.Live block → ∀ value ∈ (cfg.block block).insts, ∀ used,
    (used, .address) ∈ (cfg.inst value).data.operandUses → cfg.IsPlaceRead used
  operands : ∀ block, cfg.Live block → ∀ value ∈ (cfg.block block).insts, ∀ used ∈ (cfg.inst value).data.uses,
    ¬cfg.IsPlaceholder used
  terminators : ∀ block, cfg.Live block → ∀ used ∈ (cfg.block block).terminator.uses, ¬cfg.IsPlaceholder used

/-- Every operand names a value of the arena. -/
def Closed : Prop := ∀ value < cfg.valueCount, ∀ used ∈ (cfg.inst value).data.uses, used < cfg.valueCount

end Cfg

end Rue
