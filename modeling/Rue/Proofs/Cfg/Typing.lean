import Rue.Cfg.Typed
import Rue.Proofs.Cfg.Machine

/-! Values keep the types that the front end gave them. -/

namespace Rue

open Lib

variable {Datum World : Type} {fieldTy : Nat → Nat → Nat → Ty} {backend : Backend Datum World} {ty : Ty}

theorem Ty.isPlain_of_isFloat (float : ty.isFloat = true) : ty.isPlain := by
  cases ty with
  | f32 | f64 => decide
  | _ => cases float

namespace Ty.Has

theorem plain (plain : ty.isPlain) (value : Value Datum) : ty.Has value :=
  ⟨fun _ same => (nomatch plain.1.symm.trans same), fun truth => absurd truth plain.2⟩

theorem canonical {format : IntFormat} {image : BitVec 64} (same : ty.integer = some format)
    (stays : format.canonical image = image) : ty.Has (Value.int image : Value Datum) := by
  refine ⟨?_, ?_⟩
  · intro other found
    rw [same] at found
    cases found
    exact ⟨image, rfl, stays⟩
  · rintro rfl
    cases same

theorem unit : Ty.unit.Has (Value.unit : Value Datum) := plain (by decide) _

theorem bool (holds : Bool) : Ty.bool.Has (Value.bool holds : Value Datum) := ⟨nofun, fun _ => ⟨holds, rfl⟩⟩

theorem orTrap {format : IntFormat} {kind : TrapKind} {found : Option (BitVec 64)} {result : Value Datum}
    (same : ty.integer = some format) (stays : ∀ image, found = some image → format.canonical image = image)
    (ok : Rue.orTrap kind found = .ok result) : ty.Has result := by
  cases found with
  | none => cases ok
  | some image =>
    cases ok
    exact canonical same (stays image rfl)

end Ty.Has

/-- An integer operation makes an integer of its format. -/
theorem evalInteger_has {op : BinaryOp} {format : IntFormat} {a b : BitVec 64} {result : Value Datum}
    (arithmetic : op.isComparison = false) (same : ty.integer = some format) (ok : evalInteger op format a b = .ok result) :
    ty.Has result := by
  cases op with
  | add | sub | mul => exact .orTrap same (fun _ => IntFormat.canonical_of_checked) ok
  | div =>
    simp only [evalInteger] at ok
    split at ok
    · cases ok
    · exact .orTrap same (fun _ => IntFormat.canonical_of_quotient) ok
  | mod =>
    simp only [evalInteger] at ok
    split at ok
    · cases ok
    · exact .orTrap same (fun _ => IntFormat.canonical_of_remainder) ok
  | wrappingAdd | wrappingSub | wrappingMul | bitAnd | bitOr | bitXor | shl =>
    cases ok
    exact .canonical same (IntFormat.canonical_canonical _ _)
  | shr =>
    cases ok
    exact .canonical same (IntFormat.canonical_shiftRight _ _ _)
  | eq | ne | lt | gt | le | ge => cases arithmetic

theorem evalInteger_comparison {op : BinaryOp} {format : IntFormat} {a b : BitVec 64} {result : Value Datum}
    (comparison : op.isComparison = true) (ok : evalInteger op format a b = .ok result) : Ty.bool.Has result := by
  cases op with
  | eq | ne | lt | gt | le | ge =>
    cases ok
    exact .bool _
  | _ => cases comparison

theorem evalOther_has (typed : backend.Typed fieldTy) (op : BinaryOp) (operandTy : Ty) (a b : Value Datum)
    (truth : op.isComparison = true → ty = .bool) : ty.Has (backend.evalOther op operandTy ty a b) := by
  unfold Backend.evalOther
  split
  case h_5 => exact typed.binary _ _ _ _ _
  all_goals
    rw [truth rfl]
    exact .bool _

theorem evalBinary_has (typed : backend.Typed fieldTy) {op : BinaryOp} {operandTy : Ty} {a b result : Value Datum}
    (truth : op.isComparison = true → ty = .bool) (ok : backend.evalBinary op operandTy ty a b = .ok result) :
    ty.Has result := by
  simp only [Backend.evalBinary] at ok
  split at ok
  next format same =>
    cases comparison : op.isComparison with
    | true =>
      rw [truth comparison]
      exact evalInteger_comparison comparison ok
    | false =>
      rw [comparison] at same
      exact evalInteger_has comparison same ok
  next =>
    cases ok
    exact evalOther_has typed _ _ _ _ truth

theorem evalUnary_has (typed : backend.Typed fieldTy) {op : UnaryOp} {a result : Value Datum}
    (truth : op = .not → ty = .bool) (ok : backend.evalUnary op ty a = .ok result) : ty.Has result := by
  cases op with
  | not =>
    cases ok
    rw [truth rfl]
    exact .bool _
  | neg =>
    cases same : ty.integer with
    | none =>
      simp only [Backend.evalUnary, same] at ok
      cases ok
      exact typed.unary _ _ _
    | some format =>
      simp only [Backend.evalUnary, same] at ok
      exact .orTrap same (fun _ => IntFormat.canonical_of_checked) ok
  | bitNot =>
    cases same : ty.integer with
    | none =>
      simp only [Backend.evalUnary, same] at ok
      cases ok
      exact typed.unary _ _ _
    | some format =>
      simp only [Backend.evalUnary, same] at ok
      cases ok
      exact .canonical same (IntFormat.canonical_canonical _ _)

theorem evalCast_has (typed : backend.Typed fieldTy) {fromTy : Ty} {a result : Value Datum}
    (ok : backend.evalCast fromTy ty a = .ok result) : ty.Has result := by
  simp only [Backend.evalCast] at ok
  split at ok
  next source target _ same => exact .orTrap same (fun _ => IntFormat.canonical_of_checked) ok
  next =>
    cases ok
    exact typed.cast _ _ _

def Memory.Typed (memory : Memory Datum World) : Prop := ∀ root (ty : Ty), ty.Has (memory.cells root ty)

namespace Memory.Typed

variable {memory : Memory Datum World}

theorem view (typed : memory.Typed) (roots : List Root) :
    ∀ root (ty : Ty) held, (memory.expose roots).view root ty = some held → ty.Has held := by
  intro root ty held seen
  simp only [Memory.view] at seen
  split at seen
  · cases seen
    exact typed root ty
  · cases seen

theorem write (typed : memory.Typed) {root : Root} {value : Value Datum} (has : ty.Has value) :
    (memory.write root ty value).Typed := by
  intro other otherTy
  simp only [Memory.write]
  split
  next same =>
    rw [same.2]
    exact has
  next => exact typed other otherTy

theorem invoke (typed : memory.Typed) (sound : backend.Typed fieldTy) {event : Cfg.Event Datum} {value : Value Datum}
    {after : Memory Datum World} (done : backend.invoke event memory = .done value after) :
    event.ty.Has value ∧ after.Typed := by
  simp only [Backend.invoke] at done
  split at done
  next found cells world performed =>
    cases done
    obtain ⟨has, kept⟩ := sound.perform _ _ _ _ _ _ (typed.view _) performed
    refine ⟨has, ?_⟩
    intro root ty
    simp only [Memory.absorb]
    split
    · exact kept root ty
    · exact typed root ty
  next => cases done

end Memory.Typed

namespace Cfg

variable {cfg : Cfg} {env : CfgValue → Value Datum} {memory after : Memory Datum World} {value : CfgValue}
  {result : Value Datum}

theorem readPlace_has (sound : backend.Typed fieldTy) {mayTrap : Bool} {location : Location Datum}
    (whole : location.steps = [] → location.baseType = ty ∨ ty.isPlain) (typed : memory.Typed)
    (done : backend.readPlace mayTrap location ty memory = .done result after) : ty.Has result ∧ after.Typed := by
  simp only [Backend.readPlace] at done
  split at done
  · cases done
  · split at done
    · cases done
      refine ⟨sound.project _ _ _ ?_, typed⟩
      intro none'
      rcases whole none' with same | plain
      · rw [← same]
        exact typed _ _
      · exact .plain plain _
    all_goals
      split at done
      · cases done
      · cases done
        exact ⟨sound.fetch _ _ _ _, typed⟩

theorem writePlace_has (sound : backend.Typed fieldTy) {event : Event Datum} {location : Location Datum} {stored : Value Datum}
    (unit : event.ty = .unit) (whole : location.steps = [] → location.baseType.Has stored) (typed : memory.Typed)
    (done : backend.writePlace event location stored memory = .done result after) : Ty.unit.Has result ∧ after.Typed := by
  simp only [Backend.writePlace] at done
  split at done
  · cases done
  · split at done
    · cases done
      exact ⟨.unit, typed.write (sound.update _ _ _ _ (typed _ _) whole)⟩
    all_goals
      obtain ⟨has, kept⟩ := typed.invoke sound done
      rw [unit] at has
      exact ⟨has, kept⟩

/-- Whatever an instruction makes has its type, given that what it reads has. -/
theorem execute_has (sound : backend.Typed fieldTy) (fits : cfg.InstTyped fieldTy (cfg.inst value))
    (ordinary : ∀ index, (cfg.inst value).data ≠ .blockParam index) (real : ¬cfg.IsPlaceholder value)
    (reads : ∀ used ∈ (cfg.inst value).data.uses, (cfg.inst used).ty.Has (env used)) (typed : memory.Typed)
    (done : backend.execute cfg env memory value = .done result after) : (cfg.inst value).ty.Has result ∧ after.Typed := by
  have quiet : ∀ {found : Except TrapKind (Value Datum)}, Execution.ofResult memory found = .done result after →
      (∀ made, found = .ok made → (cfg.inst value).ty.Has made) → (cfg.inst value).ty.Has result ∧ after.Typed := by
    intro found same has
    cases found with
    | error kind => cases same
    | ok made =>
      cases same
      exact ⟨has _ rfl, typed⟩
  simp only [Backend.execute] at done
  simp only [InstTyped] at fits
  cases shape : (cfg.inst value).data with
  | const image =>
    simp only [shape] at done fits
    cases done
    refine ⟨?_, typed⟩
    rw [Backend.constant]
    split
    next float =>
      exact .plain (Ty.isPlain_of_isFloat float) _
    next =>
      refine ⟨fun format same => ⟨image, rfl, fits format same⟩, ?_⟩
      intro truth
      exact absurd ⟨image, by rw [← truth, ← shape]⟩ real
  | blockParam index => exact absurd shape (ordinary index)
  | boolConst holds =>
    simp only [shape] at done fits
    cases done
    rw [fits]
    exact ⟨.bool _, typed⟩
  | stringConst index =>
    rw [shape] at done
    cases done
    exact ⟨sound.string _ _, typed⟩
  | fnAddr name =>
    rw [shape] at done
    cases done
    exact ⟨sound.function _ _, typed⟩
  | param index | load slot =>
    rw [shape] at done
    cases done
    exact ⟨typed _ _, typed⟩
  | binary op lhs rhs =>
    simp only [shape] at done fits
    refine quiet done fun made ok => evalBinary_has sound ?_ ok
    intro comparison
    rwa [if_pos comparison] at fits
  | unary op operand =>
    simp only [shape] at done fits
    exact quiet done fun made ok => evalUnary_has sound fits.2 ok
  | intCast operand fromTy =>
    rw [shape] at done
    exact quiet done fun made ok => evalCast_has sound ok
  | structInit structId fields =>
    rw [shape] at done
    cases done
    exact ⟨sound.structInit _ _ _, typed⟩
  | arrayInit elements form =>
    rw [shape] at done
    cases done
    exact ⟨sound.arrayInit _ _ _, typed⟩
  | enumVariant enumId variantIndex payload =>
    simp only [shape] at done fits
    cases done
    exact ⟨.plain fits _, typed⟩
  | enumPayloadGet base enumId variantIndex fieldIndex =>
    simp only [shape] at done fits
    cases done
    rw [fits]
    exact ⟨sound.payload _ _ _ _, typed⟩
  | alloc slot stored | store slot stored | paramStore slot stored =>
    simp only [shape] at done fits
    cases done
    rw [fits]
    refine ⟨.unit, typed.write (reads stored ?_)⟩
    rw [shape]
    exact .head _
  | placeRead place =>
    simp only [shape] at done fits
    refine readPlace_has sound ?_ typed done
    intro none'
    exact fits (List.map_eq_nil_iff.mp none')
  | placeWrite place stored =>
    simp only [shape] at done fits
    rw [fits.1]
    refine writePlace_has sound fits.1 ?_ typed done
    intro none'
    have same : (cfg.inst stored).ty = (place.locate env).baseType := fits.2 (List.map_eq_nil_iff.mp none')
    rw [← same]
    apply reads stored
    rw [shape]
    exact .head _
  | call | accessorCall | callIndirect | intrinsic | drop =>
    rw [shape] at done
    exact typed.invoke sound done
  | storageLive | storageDead | moveOut =>
    simp only [shape] at done fits
    cases done
    rw [fits]
    exact ⟨.unit, typed⟩

/-- What is available has its type, unless it is a placeholder; so have the slots. -/
structure TypedAt (cfg : Cfg) (config : Config Datum World) (done : List CfgValue) : Prop where
  values : ∀ value, cfg.Available config.block done value → ¬cfg.IsPlaceholder value →
    (cfg.inst value).ty.Has (config.env value)
  cells : config.memory.Typed

namespace TypedAt

variable {config : Config Datum World} {done rest : List CfgValue}

theorem start {cells : Root → Ty → Value Datum} {world : World}
    (typed : ∀ root (ty : Ty), ty.Has (cells root ty))
    (entered : ∀ value, value ∈ cfg.paramValues cfg.entry → (cfg.inst value).ty.Has (env value)) :
    cfg.TypedAt (cfg.start env cells world) [] := by
  refine ⟨?_, typed⟩
  intro value available _
  rcases available with param | earlier | ⟨other, _, different, _, dominates⟩
  · exact entered value param
  · cases earlier
  · rcases dominates [] .start with passed | same
    · cases passed
    · exact absurd same different

theorem step (verified : cfg.Verified) (formed : cfg.WellTyped fieldTy) (sound : backend.Typed fieldTy)
    (typed : cfg.TypedAt config done) (located : cfg.Located config done) (head : config.rest = value :: rest)
    (executed : backend.execute cfg config.env config.memory value = .done result after) :
    cfg.TypedAt ⟨config.block, rest, Function.update config.env value result, after⟩ (done ++ [value]) := by
  have inside := located.live.inBounds verified.bounds
  have split : (cfg.block config.block).insts = done ++ value :: rest := by rw [located.split, head]
  have here : value ∈ (cfg.block config.block).insts := by rw [split]; simp
  have reads : ∀ used ∈ (cfg.inst value).data.uses, (cfg.inst used).ty.Has (config.env used) := fun used member =>
    typed.values used (verified.uses _ located.live done value rest split used member)
      (formed.operands _ located.live value here used member)
  by_cases real : cfg.IsPlaceholder value
  · obtain ⟨image, same⟩ := real
    have kept : after = config.memory := by
      simp only [Backend.execute, same] at executed
      cases executed
      rfl
    refine ⟨?_, by rw [kept]; exact typed.cells⟩
    intro other available genuine
    have different : other ≠ value := fun again => genuine (again ▸ ⟨image, same⟩)
    simp only [Function.update_of_ne different]
    exact typed.values other (available.of_snoc different) genuine
  · obtain ⟨has, kept⟩ := execute_has sound (formed.insts _ located.live value here)
      (verified.ordinary _ inside value here) real reads typed.cells executed
    refine ⟨?_, kept⟩
    intro other available genuine
    by_cases same : other = value
    · simp only [same, Function.update_self]
      exact has
    · simp only [Function.update_of_ne same]
      exact typed.values other (available.of_snoc same) genuine

theorem edge (verified : cfg.Verified) (formed : cfg.WellTyped fieldTy) (typed : cfg.TypedAt config done)
    (located : cfg.Located config done) (ended : config.rest = []) {target : BlockId} {args : List CfgValue}
    (taken : (target, args) ∈ (cfg.block config.block).terminator.edges) :
    cfg.TypedAt (cfg.enter target (args.map config.env) config.env config.memory) [] := by
  have whole : (cfg.block config.block).insts = done := by rw [located.split, ended, List.append_nil]
  refine ⟨?_, typed.cells⟩
  intro value available real
  by_cases param : value ∈ cfg.paramValues target
  · have types := verified.edges _ located.live target args taken
    have lengths : (cfg.block target).params.length = (args.map config.env).length := by
      have same := congrArg List.length types
      simpa using same.symm
    obtain ⟨index, ty, atIndex, bound⟩ := bindParams_bound lengths param
    have here := bound config.env
    rw [List.getElem?_map] at here
    obtain ⟨arg, atArg, same⟩ := Option.map_eq_some_iff.mp here
    have sameTy : (cfg.inst arg).ty = (cfg.inst value).ty := by
      have paired := congrArg (fun list => list[index]?) types
      simp only [List.getElem?_map, atArg, atIndex, Option.map_some, Option.some.injEq] at paired
      rw [paired, verified.params target (Live.inBounds verified.bounds (Lib.Reachable.step located.live (edge_of_edges taken))) index value ty atIndex]
    simp only [enter, ← same, ← sameTy]
    have used := Terminator.edges_uses taken (List.mem_of_getElem? atArg)
    apply typed.values arg _ (formed.terminators _ located.live arg used)
    rw [← whole]
    exact verified.terminatorUses _ located.live arg used
  · simp only [enter]
    rw [bindParams_of_notMem _ _ param]
    apply typed.values value _ real
    rw [← whole]
    exact available.edge (edge_of_edges taken) param

end TypedAt

end Cfg

end Rue
