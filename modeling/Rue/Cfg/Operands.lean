import Rue.Cfg.Instruction

/-! The operands of instructions and terminators, and rewriting them. -/

namespace Rue

/-- A by-reference argument names the place its operand reads; every other
operand is read. -/
inductive CfgUseKind where
  | value
  | address
  deriving DecidableEq

def CfgCallArg.useKind (arg : CfgCallArg) : CfgUseKind := if arg.isByRef then .address else .value

def PlaceBase.uses : PlaceBase → List CfgValue
  | .accessor value | .indirect value => [value]
  | .local' _ | .param _ => []

def Projection.uses : Projection → List CfgValue
  | .index _ value => [value]
  | .field _ _ => []

def Place.uses (place : Place) : List CfgValue := place.base.uses ++ place.projections.flatMap Projection.uses

def reads (values : List CfgValue) : List (CfgValue × CfgUseKind) := values.map fun value => (value, .value)

def argUses (args : List CfgCallArg) : List (CfgValue × CfgUseKind) := args.map fun arg => (arg.value, arg.useKind)

def CfgInstData.usesKinded : CfgInstData → List (CfgValue × CfgUseKind)
  | .const _ | .boolConst _ | .stringConst _ | .param _ | .blockParam _ | .fnAddr _ => []
  | .binary _ lhs rhs => reads [lhs, rhs]
  | .unary _ operand => reads [operand]
  | .alloc _ init => reads [init]
  | .load _ => []
  | .store _ value => reads [value]
  | .paramStore _ value => reads [value]
  | .call _ _ args | .accessorCall _ args => argUses args
  | .callIndirect callee args => reads [callee] ++ argUses args
  | .intrinsic _ _ args => reads args
  | .structInit _ fields => reads fields
  | .arrayInit elements _ => reads elements
  | .enumVariant _ _ payload => reads payload
  | .enumPayloadGet base _ _ _ => reads [base]
  | .intCast value _ => reads [value]
  | .drop value => reads [value]
  | .storageLive _ _ | .storageDead _ _ => []
  | .placeRead place | .moveOut place => reads place.uses
  | .placeWrite place value => reads (value :: place.uses)

def CfgInstData.uses (data : CfgInstData) : List CfgValue := data.usesKinded.map Prod.fst

def Terminator.uses : Terminator → List CfgValue
  | .goto _ args => args
  | .branch cond _ thenArgs _ elseArgs => cond :: (thenArgs ++ elseArgs)
  | .switch scrutinee _ _ => [scrutinee]
  | .return' value => value.toList
  | .unreachable | .none => []

def PlaceBase.mapUses (map : CfgValue → CfgValue) : PlaceBase → PlaceBase
  | .accessor value => .accessor (map value)
  | .indirect value => .indirect (map value)
  | .local' slot => .local' slot
  | .param slot => .param slot

def Projection.mapUses (map : CfgValue → CfgValue) : Projection → Projection
  | .index arrayType value => .index arrayType (map value)
  | .field structId fieldIndex => .field structId fieldIndex

def Place.mapUses (map : CfgValue → CfgValue) (place : Place) : Place :=
  { place with base := place.base.mapUses map, projections := place.projections.map (Projection.mapUses map) }

def CfgCallArg.mapUses (map : CfgValue → CfgValue) (arg : CfgCallArg) : CfgCallArg :=
  { arg with value := map arg.value }

def CfgInstData.mapUses (map : CfgValue → CfgValue) : CfgInstData → CfgInstData
  | .binary op lhs rhs => .binary op (map lhs) (map rhs)
  | .unary op operand => .unary op (map operand)
  | .alloc slot init => .alloc slot (map init)
  | .store slot value => .store slot (map value)
  | .paramStore paramSlot value => .paramStore paramSlot (map value)
  | .enumPayloadGet base enumId variantIndex fieldIndex => .enumPayloadGet (map base) enumId variantIndex fieldIndex
  | .intCast value fromTy => .intCast (map value) fromTy
  | .drop value => .drop (map value)
  | .placeRead place => .placeRead (place.mapUses map)
  | .moveOut place => .moveOut (place.mapUses map)
  | .placeWrite place value => .placeWrite (place.mapUses map) (map value)
  | .call runtime name args => .call runtime name (args.map (CfgCallArg.mapUses map))
  | .accessorCall name args => .accessorCall name (args.map (CfgCallArg.mapUses map))
  | .callIndirect callee args => .callIndirect (map callee) (args.map (CfgCallArg.mapUses map))
  | .intrinsic operation name args => .intrinsic operation name (args.map map)
  | .structInit structId fields => .structInit structId (fields.map map)
  | .arrayInit elements shape => .arrayInit (elements.map map) shape
  | .enumVariant enumId variantIndex payload => .enumVariant enumId variantIndex (payload.map map)
  | data => data

def Terminator.mapUses (map : CfgValue → CfgValue) : Terminator → Terminator
  | .goto target args => .goto target (args.map map)
  | .branch cond thenBlock thenArgs elseBlock elseArgs =>
    .branch (map cond) thenBlock (thenArgs.map map) elseBlock (elseArgs.map map)
  | .switch scrutinee cases default => .switch (map scrutinee) cases default
  | .return' value => .return' (value.map map)
  | .unreachable => .unreachable
  | .none => .none

/-- Sends every target through the map. -/
def Terminator.retarget (map : BlockId → BlockId) : Terminator → Terminator
  | .goto target args => .goto (map target) args
  | .branch cond thenBlock thenArgs elseBlock elseArgs =>
    .branch cond (map thenBlock) thenArgs (map elseBlock) elseArgs
  | .switch scrutinee cases default =>
    .switch scrutinee (cases.map fun case => (case.1, map case.2)) (map default)
  | .return' value => .return' value
  | .unreachable => .unreachable
  | .none => .none

/-- The values a terminator passes with each of its edges. -/
def Terminator.edges : Terminator → List (BlockId × List CfgValue)
  | .goto target args => [(target, args)]
  | .branch _ thenBlock thenArgs elseBlock elseArgs => [(thenBlock, thenArgs), (elseBlock, elseArgs)]
  | .switch _ cases default => cases.map (fun case => (case.2, [])) ++ [(default, [])]
  | .return' _ | .unreachable | .none => []

namespace Cfg

def visitInstructionUses (cfg : Cfg) (value : CfgValue) : List CfgValue := (cfg.inst value).data.uses

/-- Rewrites every use in the graph; what is defined where stays. -/
def rewriteValueUses (cfg : Cfg) (map : CfgValue → CfgValue) : Cfg :=
  { cfg with
    inst := fun value => { cfg.inst value with data := (cfg.inst value).data.mapUses map }
    block := fun block => { cfg.block block with terminator := (cfg.block block).terminator.mapUses map }
    isOwnershipBoundaryValue := fun value => cfg.isOwnershipBoundaryValue value ||
      (List.range cfg.valueCount).any fun old => cfg.isOwnershipBoundaryValue old && map old = value }

end Cfg

@[simp] theorem reads_fst (values : List CfgValue) : (reads values).map Prod.fst = values := by
  simp [reads, Function.comp_def]

@[simp] theorem PlaceBase.uses_mapUses (map : CfgValue → CfgValue) (base : PlaceBase) :
    (base.mapUses map).uses = base.uses.map map := by
  cases base <;> rfl

@[simp] theorem Projection.uses_mapUses (map : CfgValue → CfgValue) (projection : Projection) :
    (projection.mapUses map).uses = projection.uses.map map := by
  cases projection <;> rfl

@[simp] theorem Place.uses_mapUses (map : CfgValue → CfgValue) (place : Place) :
    (place.mapUses map).uses = place.uses.map map := by
  simp [Place.uses, Place.mapUses, List.map_flatMap, List.flatMap_map]

@[simp] theorem argUses_map (map : CfgValue → CfgValue) (args : List CfgCallArg) :
    argUses (args.map (CfgCallArg.mapUses map)) = (argUses args).map fun use => (map use.1, use.2) := by
  simp only [argUses, List.map_map]
  rfl

@[simp] theorem Place.mapUses_id (place : Place) : place.mapUses id = place := by
  have base : place.base.mapUses id = place.base := by cases place.base <;> rfl
  have projections : Projection.mapUses id = id := by
    funext projection
    cases projection <;> rfl
  simp [Place.mapUses, base, projections]

@[simp] theorem Terminator.mapUses_id (terminator : Terminator) : terminator.mapUses id = terminator := by
  cases terminator <;> simp [Terminator.mapUses]

namespace CfgInstData

@[simp] theorem usesKinded_mapUses (map : CfgValue → CfgValue) (data : CfgInstData) :
    (data.mapUses map).usesKinded = data.usesKinded.map fun use => (map use.1, use.2) := by
  cases data <;> simp [mapUses, usesKinded, reads]

@[simp] theorem uses_mapUses (map : CfgValue → CfgValue) (data : CfgInstData) :
    (data.mapUses map).uses = data.uses.map map := by
  simp [uses]

@[simp] theorem mapUses_mapUses (first second : CfgValue → CfgValue) (data : CfgInstData) :
    (data.mapUses first).mapUses second = data.mapUses (second ∘ first) := by
  have bases (base : PlaceBase) : (base.mapUses first).mapUses second = base.mapUses (second ∘ first) := by
    cases base <;> rfl
  have projections (projection : Projection) :
      (projection.mapUses first).mapUses second = projection.mapUses (second ∘ first) := by
    cases projection <;> rfl
  cases data <;> simp [mapUses, Place.mapUses, CfgCallArg.mapUses, bases, projections]

@[simp] theorem mapUses_id (data : CfgInstData) : data.mapUses id = data := by
  have args : CfgCallArg.mapUses id = id := rfl
  cases data <;> simp [mapUses, args]

end CfgInstData

@[simp] theorem Terminator.uses_mapUses (map : CfgValue → CfgValue) (terminator : Terminator) :
    (terminator.mapUses map).uses = terminator.uses.map map := by
  cases terminator with
  | return' value => cases value <;> rfl
  | _ => simp [Terminator.mapUses, Terminator.uses]

@[simp] theorem Terminator.edges_fst (terminator : Terminator) :
    terminator.edges.map Prod.fst = terminator.successors := by
  cases terminator <;> simp [Terminator.edges, Terminator.successors, Function.comp_def]

theorem Terminator.edges_uses {terminator : Terminator} {target : BlockId} {args : List CfgValue}
    (edge : (target, args) ∈ terminator.edges) {value : CfgValue} (member : value ∈ args) :
    value ∈ terminator.uses := by
  cases terminator <;> simp only [Terminator.edges, List.mem_cons, List.mem_append, List.mem_map, List.not_mem_nil,
    Prod.mk.injEq, or_false] at edge
  case goto => obtain ⟨-, rfl⟩ := edge; exact member
  case branch =>
    rcases edge with ⟨-, rfl⟩ | ⟨-, rfl⟩
    · exact List.mem_cons_of_mem _ (List.mem_append_left _ member)
    · exact List.mem_cons_of_mem _ (List.mem_append_right _ member)
  case switch =>
    rcases edge with ⟨_, _, _, rfl⟩ | ⟨-, rfl⟩
    · cases member
    · cases member

@[simp] theorem Terminator.uses_retarget (map : BlockId → BlockId) (terminator : Terminator) :
    (terminator.retarget map).uses = terminator.uses := by
  cases terminator <;> rfl

@[simp] theorem Terminator.edges_retarget (map : BlockId → BlockId) (terminator : Terminator) :
    (terminator.retarget map).edges = terminator.edges.map fun edge => (map edge.1, edge.2) := by
  cases terminator <;> simp [Terminator.retarget, Terminator.edges, Function.comp_def]

@[simp] theorem Terminator.successors_retarget (map : BlockId → BlockId) (terminator : Terminator) :
    (terminator.retarget map).successors = terminator.successors.map map := by
  cases terminator <;> simp [Terminator.retarget, Terminator.successors]

end Rue

namespace Rue.Cfg

variable (cfg : Cfg)

def addInst (inst : CfgInst) : Cfg × CfgValue :=
  ({ cfg with valueCount := cfg.valueCount + 1, inst := Function.update cfg.inst cfg.valueCount inst }, cfg.valueCount)

def setInstData (value : CfgValue) (data : CfgInstData) : Cfg :=
  { cfg with inst := Function.update cfg.inst value { cfg.inst value with data } }

def setInsts (block : BlockId) (insts : List CfgValue) : Cfg :=
  { cfg with block := Function.update cfg.block block { cfg.block block with insts } }

end Rue.Cfg
