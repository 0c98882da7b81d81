import Rue.Proofs.Cfg.Availability

/-! The steps of a graph: what each can do, and that an instruction does the same
wherever its operands are the same. -/

namespace Rue

variable {Datum World : Type}

namespace Cfg

variable {cfg other : Cfg} {env after : CfgValue → Value Datum} {map : CfgValue → CfgValue}

/-- An instruction finds the same operands under a renaming of its uses. -/
def Agrees (cfg : Cfg) (env : CfgValue → Value Datum) (other : Cfg) (after : CfgValue → Value Datum)
    (map : CfgValue → CfgValue) (data : CfgInstData) : Prop :=
  ∀ use ∈ data.operandUses, other.operand after (map use.1, use.2) = cfg.operand env use

theorem operand_value_eq {value : CfgValue}
    (same : other.operand after (map value, .value) = cfg.operand env (value, .value)) :
    (other.inst (map value)).ty = (cfg.inst value).ty ∧ after (map value) = env value := by
  obtain ⟨types, values⟩ := Prod.mk.inj same
  exact ⟨types, Operand.value.inj values⟩

theorem operand_value {value : CfgValue} (types : (other.inst (map value)).ty = (cfg.inst value).ty)
    (values : after (map value) = env value) :
    other.operand after (map value, .value) = cfg.operand env (value, .value) := by
  simp only [operand, types, values]

theorem map_reads {values : List CfgValue}
    (same : ∀ use ∈ reads values, other.operand after (map use.1, use.2) = cfg.operand env use) :
    (values.map map).map after = values.map env := by
  rw [List.map_map]
  apply List.map_congr_left
  intro value member
  exact (operand_value_eq (same (value, .value) (List.mem_map.mpr ⟨value, member, rfl⟩))).2

theorem locate_mapUses {place : Place} (same : ∀ value ∈ place.uses, after (map value) = env value) :
    (place.mapUses map).locate after = place.locate env := by
  have base : (place.base.mapUses map).locate after = place.base.locate env := by
    have read : ∀ value ∈ place.base.uses, after (map value) = env value :=
      fun value member => same value (List.mem_append_left _ member)
    cases shape : place.base with
    | local' | param => rfl
    | accessor value | indirect value =>
      simp only [PlaceBase.mapUses, PlaceBase.locate, read value (by simp [shape, PlaceBase.uses])]
  have steps : (place.projections.map (Projection.mapUses map)).map (Projection.locate after) =
      place.projections.map (Projection.locate env) := by
    rw [List.map_map]
    apply List.map_congr_left
    intro projection member
    cases projection with
    | field => rfl
    | index arrayType value =>
      have read := same value (List.mem_append_right _ (List.mem_flatMap.mpr ⟨_, member, by simp [Projection.uses]⟩))
      simp only [Function.comp_apply, Projection.mapUses, Projection.locate, read]
  simp only [Place.locate, Place.mapUses, base, steps]

theorem locate_congr {place : Place} (same : ∀ value ∈ place.uses, after value = env value) :
    place.locate after = place.locate env := by
  have located : (place.mapUses id).locate after = place.locate env := locate_mapUses same
  rwa [Place.mapUses_id] at located

theorem locate_reads {place : Place}
    (same : ∀ use ∈ reads place.uses, other.operand after (map use.1, use.2) = cfg.operand env use) :
    (place.mapUses map).locate after = place.locate env :=
  locate_mapUses fun value member => (operand_value_eq (same (value, .value) (List.mem_map.mpr ⟨value, member, rfl⟩))).2

end Cfg

@[simp] theorem CfgInstData.operandUses_mapUses (map : CfgValue → CfgValue) (data : CfgInstData) :
    (data.mapUses map).operandUses = data.operandUses.map fun use => (map use.1, use.2) := by
  cases data with
  | intrinsic operation name args => cases args <;> simp [mapUses, operandUses, usesKinded, reads]
  | _ => simp [mapUses, operandUses, usesKinded, reads]

theorem CfgInstData.mem_uses_of_operandUses {data : CfgInstData} {used : CfgValue} {kind : CfgUseKind}
    (use : (used, kind) ∈ data.operandUses) : used ∈ data.uses := by
  cases data with
  | intrinsic operation name args =>
    cases args with
    | nil => cases use
    | cons place args =>
      rcases List.mem_cons.mp use with same | later
      · simp [uses, usesKinded, reads, (Prod.mk.inj same).1]
      · obtain ⟨arg, member, same⟩ := List.mem_map.mp later
        simp [uses, usesKinded, reads, ← (Prod.mk.inj same).1, member]
  | _ => exact List.mem_map.mpr ⟨_, use, rfl⟩

@[simp] theorem CfgInstData.mayTrap_mapUses (map : CfgValue → CfgValue) (data : CfgInstData) :
    (data.mapUses map).mayTrap = data.mayTrap := by
  have base (base : PlaceBase) : (base.mapUses map).isIndirect = base.isIndirect := by cases base <;> rfl
  have index : Projection.isIndex ∘ Projection.mapUses map = Projection.isIndex := by
    funext projection
    cases projection <;> rfl
  cases data <;> simp [mapUses, mayTrap, Place.mapUses, base, index]

@[simp] theorem CfgInstData.hasObservableSideEffect_mapUses (map : CfgValue → CfgValue) (data : CfgInstData) :
    (data.mapUses map).hasObservableSideEffect = data.hasObservableSideEffect := by
  cases data <;> rfl

namespace Cfg

variable {cfg other : Cfg} {env after : CfgValue → Value Datum} {map : CfgValue → CfgValue} {value image : CfgValue}

theorem event_congr (data : (other.inst image).data = (cfg.inst value).data.mapUses map)
    (ty : (other.inst image).ty = (cfg.inst value).ty) (agrees : cfg.Agrees env other after map (cfg.inst value).data) :
    other.event after image = cfg.event env value := by
  have operands : (other.inst image).data.operandUses.map (other.operand after) =
      (cfg.inst value).data.operandUses.map (cfg.operand env) := by
    rw [data, CfgInstData.operandUses_mapUses, List.map_map]
    exact List.map_congr_left fun use member => agrees use member
  rw [event, event, operands, ty, data, CfgInstData.mapUses_mapUses]
  rfl

/-- An instruction that finds the same operands does the same. -/
theorem execute_congr (backend : Backend Datum World) (memory : Memory Datum World)
    (data : (other.inst image).data = (cfg.inst value).data.mapUses map)
    (ty : (other.inst image).ty = (cfg.inst value).ty) (ordinary : ∀ index, (cfg.inst value).data ≠ .blockParam index)
    (agrees : cfg.Agrees env other after map (cfg.inst value).data) :
    backend.execute other after memory image = backend.execute cfg env memory value := by
  have events := event_congr data ty agrees
  have read : ∀ used, (used, CfgUseKind.value) ∈ (cfg.inst value).data.operandUses →
      (other.inst (map used)).ty = (cfg.inst used).ty ∧ after (map used) = env used :=
    fun used member => operand_value_eq (agrees (used, .value) member)
  have readAll : ∀ values : List CfgValue, (cfg.inst value).data.operandUses = reads values →
      (values.map map).map after = values.map env := by
    intro values all
    apply map_reads
    intro use member
    exact agrees use (all ▸ member)
  have located : ∀ place : Place, (∀ use ∈ reads place.uses, use ∈ (cfg.inst value).data.operandUses) →
      (place.mapUses map).locate after = place.locate env :=
    fun place inside => locate_reads fun use member => agrees use (inside use member)
  simp only [Backend.execute, events]
  cases shape : (cfg.inst value).data with
  | blockParam index => exact absurd shape (ordinary index)
  | const | boolConst | stringConst | param | fnAddr | load | storageLive | storageDead =>
    simp only [data, shape, CfgInstData.mapUses, ty]
  | call | accessorCall | callIndirect | intrinsic | drop => simp only [data, shape, CfgInstData.mapUses]
  | moveOut => simp only [data, shape, CfgInstData.mapUses]
  | binary op lhs rhs =>
    obtain ⟨types, left⟩ := read lhs (by simp [shape, CfgInstData.operandUses, CfgInstData.usesKinded, reads])
    obtain ⟨-, right⟩ := read rhs (by simp [shape, CfgInstData.operandUses, CfgInstData.usesKinded, reads])
    simp only [data, shape, CfgInstData.mapUses, ty, types, left, right]
  | unary op operand =>
    obtain ⟨-, same⟩ := read operand (by simp [shape, CfgInstData.operandUses, CfgInstData.usesKinded, reads])
    simp only [data, shape, CfgInstData.mapUses, ty, same]
  | intCast operand fromTy =>
    obtain ⟨-, same⟩ := read operand (by simp [shape, CfgInstData.operandUses, CfgInstData.usesKinded, reads])
    simp only [data, shape, CfgInstData.mapUses, ty, same]
  | enumPayloadGet base enumId variantIndex fieldIndex =>
    obtain ⟨-, same⟩ := read base (by simp [shape, CfgInstData.operandUses, CfgInstData.usesKinded, reads])
    simp only [data, shape, CfgInstData.mapUses, same]
  | alloc slot stored | store slot stored | paramStore slot stored =>
    obtain ⟨types, same⟩ := read stored (by simp [shape, CfgInstData.operandUses, CfgInstData.usesKinded, reads])
    simp only [data, shape, CfgInstData.mapUses, types, same]
  | structInit structId fields =>
    simp only [data, shape, CfgInstData.mapUses, ty, readAll fields (by rw [shape]; rfl)]
  | arrayInit elements form =>
    simp only [data, shape, CfgInstData.mapUses, ty, readAll elements (by rw [shape]; rfl)]
  | enumVariant enumId variantIndex payload =>
    simp only [data, shape, CfgInstData.mapUses, ty, readAll payload (by rw [shape]; rfl)]
  | placeRead place =>
    have same := located place fun use member => by
      simpa [shape, CfgInstData.operandUses, CfgInstData.usesKinded] using member
    have traps := CfgInstData.mayTrap_mapUses map (.placeRead place)
    simp only [CfgInstData.mapUses] at traps
    simp only [data, shape, CfgInstData.mapUses, ty, same, traps]
  | placeWrite place stored =>
    have same := located place fun use member => by
      simp only [shape, CfgInstData.operandUses, CfgInstData.usesKinded, reads, List.map_cons]
      exact List.mem_cons_of_mem _ member
    obtain ⟨-, value⟩ := read stored (by simp [shape, CfgInstData.operandUses, CfgInstData.usesKinded, reads])
    simp only [data, shape, CfgInstData.mapUses, same, value]

/-- The point of a run: a live block, part of it done. -/
structure Located (cfg : Cfg) (config : Config Datum World) (done : List CfgValue) : Prop where
  live : cfg.Live config.block
  split : (cfg.block config.block).insts = done ++ config.rest

variable {backend : Backend Datum World} {config next : Config Datum World} {done rest : List CfgValue}
  {events : List (Event Datum)} {memory : Memory Datum World}

theorem selectCase_mem (width : Nat) (image : BitVec 64) (cases : List (BitVec 64 × BlockId)) (default : BlockId) :
    selectCase width image cases default ∈ cases.map Prod.snd ++ [default] := by
  unfold selectCase
  cases found : cases.find? fun case => case.1.setWidth width = image.setWidth width with
  | none => simp
  | some case =>
    apply List.mem_append_left
    exact List.mem_map.mpr ⟨case, List.mem_of_find?_eq_some found, rfl⟩

theorem selectCase_map (map : BlockId → BlockId) (width : Nat) (image : BitVec 64) (cases : List (BitVec 64 × BlockId))
    (default : BlockId) : selectCase width image (cases.map fun case => (case.1, map case.2)) (map default) =
      map (selectCase width image cases default) := by
  simp only [selectCase, List.find?_map, Function.comp_def]
  cases cases.find? _ <;> rfl

/-- A terminator jumps along one of its edges, with the arguments of that edge. -/
theorem exit_jump {terminator : Terminator} {target : BlockId} {values : List (Value Datum)}
    (jumps : cfg.exit backend terminator env memory = .jump target values) :
    ∃ args, (target, args) ∈ terminator.edges ∧ values = args.map env := by
  cases terminator with
  | goto target args =>
    obtain ⟨rfl, rfl⟩ := Exit.jump.inj jumps
    exact ⟨args, by simp [Terminator.edges], rfl⟩
  | branch cond thenBlock thenArgs elseBlock elseArgs =>
    simp only [exit] at jumps
    split at jumps
    · obtain ⟨rfl, rfl⟩ := Exit.jump.inj jumps
      exact ⟨thenArgs, by simp [Terminator.edges], rfl⟩
    · obtain ⟨rfl, rfl⟩ := Exit.jump.inj jumps
      exact ⟨elseArgs, by simp [Terminator.edges], rfl⟩
  | switch scrutinee cases default =>
    obtain ⟨rfl, rfl⟩ := Exit.jump.inj jumps
    refine ⟨[], ?_, rfl⟩
    rcases List.mem_append.mp (selectCase_mem _ _ cases default) with member | member
    · obtain ⟨case, inside, same⟩ := List.mem_map.mp member
      exact List.mem_append_left _ (List.mem_map.mpr ⟨case, inside, by rw [same]⟩)
    · exact List.mem_append_right _ (by simpa using member)
  | return' | unreachable | none => cases jumps

/-- A terminator that finds the same operands leads to the same place. -/
theorem exit_congr (backend : Backend Datum World) (memory : Memory Datum World) {terminator : Terminator}
    (values : ∀ used ∈ terminator.uses, after (map used) = env used)
    (types : ∀ used ∈ terminator.uses, (other.inst (map used)).ty = (cfg.inst used).ty) :
    other.exit backend (terminator.mapUses map) after memory = cfg.exit backend terminator env memory := by
  have all : ∀ args : List CfgValue, (∀ arg ∈ args, arg ∈ terminator.uses) →
      (args.map map).map after = args.map env := by
    intro args inside
    rw [List.map_map]
    exact List.map_congr_left fun arg member => values arg (inside arg member)
  cases terminator with
  | goto target args => simp only [Terminator.mapUses, exit, all args fun arg member => member]
  | branch cond thenBlock thenArgs elseBlock elseArgs =>
    simp only [Terminator.mapUses, exit, values cond (by simp [Terminator.uses]),
      all thenArgs fun arg member => by simp [Terminator.uses, member],
      all elseArgs fun arg member => by simp [Terminator.uses, member]]
  | switch scrutinee cases default =>
    simp only [Terminator.mapUses, exit, values scrutinee (by simp [Terminator.uses]),
      types scrutinee (by simp [Terminator.uses])]
  | return' value =>
    cases value with
    | none => rfl
    | some value =>
      simp only [Terminator.mapUses, exit, Option.map_some, values value (by simp [Terminator.uses])]
  | unreachable | none => rfl

/-- What one move can be: an instruction of the block, or an edge out of it. -/
theorem advance_step (moved : cfg.advance backend config = .step events next) :
    (∃ value rest result memory, config.rest = value :: rest ∧
      backend.execute cfg config.env config.memory value = .done result memory ∧
      events = (if (cfg.inst value).data.hasObservableSideEffect then [cfg.event config.env value] else []) ∧
      next = ⟨config.block, rest, Function.update config.env value result, memory⟩) ∨
    (config.rest = [] ∧ events = [] ∧ ∃ target args,
      cfg.exit backend (cfg.block config.block).terminator config.env config.memory =
        .jump target (args.map config.env) ∧
      (target, args) ∈ (cfg.block config.block).terminator.edges ∧
      next = cfg.enter target (args.map config.env) config.env config.memory) := by
  obtain ⟨block, rest, env, memory⟩ := config
  cases rest with
  | nil =>
    simp only [advance, terminate] at moved
    cases leads : cfg.exit backend (cfg.block block).terminator env memory with
    | stop ending => rw [leads] at moved; cases moved
    | jump target values =>
      rw [leads] at moved
      obtain ⟨rfl, rfl⟩ := Lib.Move.step.inj moved
      obtain ⟨args, edge, rfl⟩ := exit_jump leads
      exact Or.inr ⟨rfl, rfl, target, args, rfl, edge, rfl⟩
  | cons value rest =>
    simp only [advance] at moved
    cases executed : backend.execute cfg env memory value with
    | trap kind world => rw [executed] at moved; cases moved
    | done result memory =>
      rw [executed] at moved
      obtain ⟨rfl, rfl⟩ := Lib.Move.step.inj moved
      exact Or.inl ⟨value, rest, result, memory, rfl, executed, rfl, rfl⟩

/-- What one stop can be: a trap of an instruction, or a terminator that ends. -/
theorem advance_stop {ending : Ending Datum World} (stopped : cfg.advance backend config = .stop events ending) :
    (∃ value rest kind world, config.rest = value :: rest ∧
      backend.execute cfg config.env config.memory value = .trap kind world ∧
      events = (if (cfg.inst value).data.hasObservableSideEffect then [cfg.event config.env value] else []) ∧
      ending = .trapped kind world) ∨
    (config.rest = [] ∧ events = [] ∧
      cfg.exit backend (cfg.block config.block).terminator config.env config.memory = .stop ending) := by
  obtain ⟨block, rest, env, memory⟩ := config
  cases rest with
  | nil =>
    simp only [advance, terminate] at stopped
    cases leads : cfg.exit backend (cfg.block block).terminator env memory with
    | jump target values => rw [leads] at stopped; cases stopped
    | stop ending =>
      rw [leads] at stopped
      obtain ⟨rfl, rfl⟩ := Lib.Move.stop.inj stopped
      exact Or.inr ⟨rfl, rfl, rfl⟩
  | cons value rest =>
    simp only [advance] at stopped
    cases executed : backend.execute cfg env memory value with
    | done result memory => rw [executed] at stopped; cases stopped
    | trap kind world =>
      rw [executed] at stopped
      obtain ⟨rfl, rfl⟩ := Lib.Move.stop.inj stopped
      exact Or.inl ⟨value, rest, kind, world, rfl, executed, rfl, rfl⟩

theorem advance_cons {value : CfgValue} {rest : List CfgValue} (head : config.rest = value :: rest) :
    cfg.advance backend config =
      match backend.execute cfg config.env config.memory value with
      | .done result memory =>
        .step (if (cfg.inst value).data.hasObservableSideEffect then [cfg.event config.env value] else [])
          ⟨config.block, rest, Function.update config.env value result, memory⟩
      | .trap kind world =>
        .stop (if (cfg.inst value).data.hasObservableSideEffect then [cfg.event config.env value] else [])
          (.trapped kind world) := by
  obtain ⟨block, _, env, memory⟩ := config
  cases head
  rfl

theorem advance_nil (head : config.rest = []) :
    cfg.advance backend config = cfg.terminate backend (cfg.block config.block).terminator config.env config.memory := by
  obtain ⟨block, _, env, memory⟩ := config
  cases head
  rfl

theorem evalBinary_quiet (backend : Backend Datum World) {op : BinaryOp} (steady : op ∉ [.add, .sub, .mul, .div, .mod]) (operandTy ty : Ty)
    (a b : Value Datum) : ∃ result, backend.evalBinary op operandTy ty a b = .ok result := by
  simp only [Backend.evalBinary]
  split
  · cases op <;> first | exact ⟨_, rfl⟩ | simp at steady
  · exact ⟨_, rfl⟩

theorem evalUnary_quiet (backend : Backend Datum World) {op : UnaryOp} (steady : op ≠ .neg) (ty : Ty) (a : Value Datum) :
    ∃ result, backend.evalUnary op ty a = .ok result := by
  cases op with
  | neg => exact absurd rfl steady
  | not => exact ⟨_, rfl⟩
  | bitNot => cases format : ty.integer <;> exact ⟨_, by simp only [Backend.evalUnary, format]; rfl⟩

/-- An instruction that neither traps nor is observed yields a value and no more. -/
theorem execute_quiet (backend : Backend Datum World) (env : CfgValue → Value Datum) (memory : Memory Datum World)
    (steady : (cfg.inst value).data.mayTrap = false) (unseen : (cfg.inst value).data.hasObservableSideEffect = false) :
    ∃ result, backend.execute cfg env memory value = .done result memory := by
  simp only [Backend.execute]
  cases shape : (cfg.inst value).data with
  | binary op lhs rhs =>
    rw [shape] at steady
    obtain ⟨result, same⟩ := evalBinary_quiet backend (of_decide_eq_false steady) (cfg.inst lhs).ty
      (cfg.inst value).ty (env lhs) (env rhs)
    exact ⟨result, by simp only [same, Execution.ofResult]⟩
  | unary op operand =>
    rw [shape] at steady
    obtain ⟨result, same⟩ := evalUnary_quiet backend (of_decide_eq_false steady) (cfg.inst value).ty
      (env operand)
    exact ⟨result, by simp only [same, Execution.ofResult]⟩
  | placeRead place =>
    rw [shape] at steady
    simp only [steady, Backend.readPlace, Bool.false_and, Bool.false_eq_true, if_false]
    split <;> exact ⟨_, rfl⟩
  | intCast => rw [shape] at steady; cases steady
  | alloc | store | paramStore | placeWrite | call | accessorCall | callIndirect | intrinsic | drop | storageLive
  | storageDead | moveOut => rw [shape] at unseen; cases unseen
  | _ => exact ⟨_, rfl⟩

/-- Binding parameters keeps the agreement of two environments on a value. -/
theorem bindParams_congr (params : List (CfgValue × Ty)) (values : List (Value Datum))
    (same : after value = env value) : bindParams params values after value = bindParams params values env value := by
  simp only [bindParams]
  induction params.zip values generalizing env after with
  | nil => exact same
  | cons pair pairs ih =>
    apply ih
    by_cases here : value = pair.1.1
    · simp only [here, Function.update_self]
    · simp only [Function.update_of_ne here, same]

/-- A parameter is bound to the argument at its place. -/
theorem bindParams_bound {params : List (CfgValue × Ty)} {values : List (Value Datum)} (lengths : params.length = values.length)
    (param : value ∈ params.map Prod.fst) :
    ∃ (index : Nat) (ty : Ty), params[index]? = some (value, ty) ∧
      ∀ env : CfgValue → Value Datum, values[index]? = some (bindParams params values env value) := by
  induction params generalizing values with
  | nil => cases param
  | cons first params ih =>
    cases values with
    | nil => cases lengths
    | cons bound values =>
      by_cases later : value ∈ params.map Prod.fst
      · obtain ⟨index, ty, found, same⟩ := ih (Nat.succ.inj lengths) later
        exact ⟨index + 1, ty, found, fun env => same (Function.update env first.1 bound)⟩
      · obtain rfl : value = first.1 := (List.mem_cons.mp param).resolve_right later
        refine ⟨0, first.2, rfl, fun env => ?_⟩
        have kept := bindParams_of_notMem values (Function.update env first.1 bound) later
        rw [Function.update_self] at kept
        exact (congrArg some kept).symm

theorem edge_of_edges {block target : BlockId} {args : List CfgValue}
    (edge : (target, args) ∈ (cfg.block block).terminator.edges) : cfg.Edge block target := by
  simp only [Edge, succs, ← Terminator.edges_fst]
  exact List.mem_map.mpr ⟨_, edge, rfl⟩

theorem Located.start (env : CfgValue → Value Datum) (cells : Root → Ty → Value Datum) (world : World) :
    cfg.Located (cfg.start env cells world) [] :=
  ⟨Lib.Reachable.start, rfl⟩

theorem Located.execute (located : cfg.Located config done) {rest : List CfgValue} (head : config.rest = value :: rest)
    (result : Value Datum) (memory : Memory Datum World) :
    cfg.Located ⟨config.block, rest, Function.update config.env value result, memory⟩ (done ++ [value]) :=
  ⟨located.live, by simpa [head] using located.split⟩

theorem Located.edge (located : cfg.Located config done) {target : BlockId} {args : List CfgValue}
    (edge : (target, args) ∈ (cfg.block config.block).terminator.edges) (values : List (Value Datum))
    (memory : Memory Datum World) : cfg.Located (cfg.enter target values config.env memory) [] :=
  ⟨Lib.Reachable.step located.live (edge_of_edges edge), rfl⟩

end Cfg

end Rue
