import Rue.Proofs.Opt.ReducedGraph

/-! With shifts and masks a graph shows what it showed with divisions. -/

namespace Rue.Peephole

open Cfg Lib

variable {Datum World : Type} {cfg after : Cfg} {amounts : Amounts} {value : CfgValue} {fieldTy : Nat → Nat → Nat → Ty}
  {env env' : CfgValue → Value Datum} {backend : Backend Datum World} {memory : Memory Datum World}

/-- A constant has the value it was given. -/
def Constant (cfg : Cfg) (backend : Backend Datum World) (env : CfgValue → Value Datum) (value : CfgValue) : Prop :=
  ∀ image, (cfg.inst value).data = .const image → env value = backend.constant (cfg.inst value).ty image

theorem constant_local : Cfg.Local (fun _ => []) (Constant cfg backend) :=
  fun _ _ _ holds same _ image shape => same.trans (holds image shape)

theorem constant_established {result : Value Datum} {next : Memory Datum World}
    (executed : backend.execute cfg env memory value = .done result next) :
    Constant cfg backend (Function.update env value result) value := by
  intro image shape
  simp only [Backend.execute, shape] at executed
  obtain ⟨rfl, rfl⟩ := Execution.done.inj executed
  exact Function.update_self _ _ _

theorem nothing_grounded (cfg : Cfg) : cfg.Grounded fun _ => [] := fun _ _ _ _ _ _ _ absent => nomatch absent

structure Widened (cfg : Cfg) (backend : Backend Datum World) (amounts : Amounts) (config image : Config Datum World) : Prop where
  located : ∃ done, cfg.Located config done ∧ cfg.Facts (Constant cfg backend) config.env config.block done
  block : image.block = config.block
  rest : image.rest = config.rest.flatMap (expand amounts)
  memory : image.memory = config.memory
  env : ∀ value < cfg.valueCount, image.env value = config.env value

theorem placeOf_reduced (closed : cfg.Closed) (reduced : Reduced cfg after amounts)
    (same : ∀ value < cfg.valueCount, env' value = env value) (inside : value < cfg.valueCount) :
    after.placeOf env' value = cfg.placeOf env value := by
  cases taken : amounts value with
  | none =>
    have uses := closed value inside
    simp only [placeOf, reduced.kept value inside taken]
    split
    · rfl
    · rfl
    · next place shape =>
      have located : place.locate env' = place.locate env := locate_congr fun used member =>
        same used (uses used (by simpa [shape, CfgInstData.uses, CfgInstData.usesKinded] using member))
      rw [located]
    · rw [same value inside]
  | some amount =>
    obtain ⟨_, reduction, _, _, _, _, valueInst⟩ := reduced.replaced value amount taken
    obtain ⟨_, _, reducible⟩ := reduction_reducible reduction
    rcases reducible.shape with ⟨shape, _⟩ | ⟨shape, _⟩
    all_goals
      simp only [placeOf, valueInst, shape, same value inside]

theorem agrees_reduced (closed : cfg.Closed) (reduced : Reduced cfg after amounts)
    (same : ∀ value < cfg.valueCount, env' value = env value) (inside : value < cfg.valueCount) :
    cfg.Agrees env after env' id (cfg.inst value).data := by
  rintro ⟨used, kind⟩ use
  have old := closed value inside used (CfgInstData.mem_uses_of_operandUses use)
  cases kind with
  | value => exact operand_value (reduced.ty old) (same used old)
  | address =>
    simp only [operand, id]
    exact Prod.ext (reduced.ty old) (placeOf_reduced closed reduced same old)

/-- A division by a power of two is a shift or a mask where it stands, and its
divisor is known there. -/
theorem execute_reducible (verified : cfg.Verified) (formed : cfg.WellTyped fieldTy) {block : BlockId}
    {done rest : List CfgValue} (live : cfg.Live block) (split : (cfg.block block).insts = done ++ value :: rest)
    (facts : cfg.Facts (Constant cfg backend) env block done) {found : Reduction} (reduced : reduction cfg value = some found)
    (memory : Memory Datum World) :
    (cfg.inst found.numerator).ty = (cfg.inst value).ty ∧
      backend.constant (cfg.inst value).ty found.amount = .int found.amount ∧
      backend.execute cfg env memory value = Execution.ofResult memory
        (backend.evalBinary found.op (cfg.inst value).ty (cfg.inst value).ty (env found.numerator) (.int found.amount)) := by
  have member : value ∈ (cfg.block block).insts := by rw [split]; simp
  obtain ⟨divisor, power, reducible⟩ := reduction_reducible reduced
  obtain ⟨format, kind, unsigned, small, numeratorTy, divisorTy⟩ := small_of_reducible verified formed live member reducible
  have whole : (cfg.inst value).ty.isFloat = false := by
    have unsigned := reducible.unsigned
    cases shape : (cfg.inst value).ty <;> rw [shape] at unsigned <;> first | rfl | cases unsigned
  have divisorUsed : divisor ∈ (cfg.inst value).data.uses := by
    rcases reducible.shape with ⟨shape, _⟩ | ⟨shape, _⟩
    all_goals
      rw [shape]
      exact .tail _ (.head _)
  have available := verified.uses block live done value rest split divisor divisorUsed
  have divisorInst : cfg.IsInst divisor := by
    obtain ⟨other, otherLive, here⟩ := inst_of_available verified live ⟨_, split.symm⟩ available (by
      intro index shape
      rw [reducible.constant] at shape
      cases shape)
    exact ⟨other, otherLive.inBounds verified.bounds, here⟩
  have divides : env divisor = .int (BitVec.twoPow 64 power) := by
    rw [facts divisor divisorInst available _ reducible.constant, divisorTy, Backend.constant, whole]
    rfl
  refine ⟨numeratorTy, ?_, ?_⟩
  · rw [Backend.constant, whole]
    rfl
  · rcases reducible.shape with ⟨shape, op, image⟩ | ⟨shape, op, image⟩
    · simp only [Backend.execute, shape, op, image, Backend.evalBinary, BinaryOp.isComparison, Bool.false_eq_true, if_false,
        kind, divides, Backend.imageOf]
      exact congrArg _ (div_eq_shr unsigned small _)
    · simp only [Backend.execute, shape, op, image, Backend.evalBinary, BinaryOp.isComparison, Bool.false_eq_true, if_false,
        kind, divides, Backend.imageOf]
      exact congrArg _ (mod_eq_bitAnd unsigned small _)

/-- What replaces a division yields what the division yields. -/
theorem execute_replaced (verified : cfg.Verified) (formed : cfg.WellTyped fieldTy) (closed : cfg.Closed)
    (reduced : Reduced cfg after amounts) {block : BlockId} {done rest : List CfgValue} (live : cfg.Live block)
    (split : (cfg.block block).insts = done ++ value :: rest) (facts : cfg.Facts (Constant cfg backend) env block done)
    (same : ∀ value < cfg.valueCount, env' value = env value) {amount : CfgValue} (taken : amounts value = some amount) :
    ∃ image ty, after.inst amount = ⟨.const image, ty⟩ ∧ ∀ memory : Memory Datum World,
      backend.execute after (Function.update env' amount (backend.constant ty image)) memory value =
        backend.execute cfg env memory value := by
  obtain ⟨found, reduction, inside, above, _, amountInst, valueInst⟩ := reduced.replaced value amount taken
  obtain ⟨divisor, power, reducible⟩ := reduction_reducible reduction
  refine ⟨found.amount, _, amountInst, ?_⟩
  intro memory
  obtain ⟨numeratorTy, shifts, executes⟩ := execute_reducible verified formed live split facts reduction memory
  have numeratorUsed : found.numerator ∈ (cfg.inst value).data.uses := by
    rcases reducible.shape with ⟨shape, _⟩ | ⟨shape, _⟩
    all_goals
      rw [shape]
      exact .head _
  have old := closed value inside found.numerator numeratorUsed
  have numerator : Function.update env' amount (.int found.amount) found.numerator = env found.numerator := by
    rw [Function.update_of_ne (Nat.ne_of_lt (Nat.lt_of_lt_of_le old above)), same _ old]
  rw [executes, shifts]
  simp only [Backend.execute, valueInst, numerator, Function.update_self, reduced.ty old, numeratorTy]

/-- The run with shifts does what the run with divisions does next. -/
theorem advance_reduced (verified : cfg.Verified) (formed : cfg.WellTyped fieldTy) (closed : cfg.Closed)
    (reduced : Reduced cfg after amounts) {config image : Config Datum World} (widened : Widened cfg backend amounts config image)
    {rest : List CfgValue} (head : config.rest = value :: rest) :
    ∃ ready, Silent (after.advance backend) image ready ∧ ready.block = config.block ∧
      (∀ other < cfg.valueCount, ready.env other = config.env other) ∧ after.advance backend ready =
        match backend.execute cfg config.env config.memory value with
        | .done result memory =>
          .step (if (cfg.inst value).data.hasObservableSideEffect then [cfg.event config.env value] else [])
            ⟨config.block, rest.flatMap (expand amounts), Function.update ready.env value result, memory⟩
        | .trap kind world =>
          .stop (if (cfg.inst value).data.hasObservableSideEffect then [cfg.event config.env value] else [])
            (.trapped kind world) := by
  obtain ⟨done, located, facts⟩ := widened.located
  have inside := located.live.inBounds verified.bounds
  have split : (cfg.block config.block).insts = done ++ value :: rest := by rw [located.split, head]
  have here : value ∈ (cfg.block config.block).insts := by rw [split]; simp
  have arena := arena_of_insts verified inside here
  have ahead : image.rest = (amounts value).toList ++ value :: rest.flatMap (expand amounts) := by
    rw [widened.rest, head, List.flatMap_cons, expand, List.append_assoc, List.singleton_append]
  cases taken : amounts value with
  | none =>
    rw [taken] at ahead
    have agrees := agrees_reduced closed reduced widened.env arena
    have data : (after.inst value).data = (cfg.inst value).data.mapUses id := by
      rw [reduced.kept value arena taken, CfgInstData.mapUses_id]
    refine ⟨image, .refl, widened.block, widened.env, ?_⟩
    have stepped := @advance_cons _ _ after backend image _ _ ahead
    rw [widened.memory, widened.block,
      execute_congr backend config.memory data (reduced.ty arena) (verified.ordinary _ inside value here) agrees,
      event_congr data (reduced.ty arena) agrees, reduced.kept value arena taken] at stepped
    exact stepped
  | some amount =>
    rw [taken] at ahead
    obtain ⟨constant, ty, amountInst, executes⟩ := execute_replaced verified formed closed reduced located.live split facts
      widened.env taken
    obtain ⟨found, reduction, _, above, _, _, valueInst⟩ := reduced.replaced value amount taken
    obtain ⟨divisor, power, reducible⟩ := reduction_reducible reduction
    have quiet : (cfg.inst value).data.hasObservableSideEffect = false := by
      rcases reducible.shape with ⟨shape, _⟩ | ⟨shape, _⟩
      all_goals
        rw [shape]
        rfl
    have made : backend.execute after image.env image.memory amount = .done (backend.constant ty constant) image.memory := by
      simp only [Backend.execute, amountInst]
    have first : after.advance backend image =
        .step [] ⟨image.block, value :: rest.flatMap (expand amounts),
          Function.update image.env amount (backend.constant ty constant), image.memory⟩ := by
      rw [advance_cons ahead, made, amountInst]
      rfl
    refine ⟨_, .step first, widened.block, ?_, ?_⟩
    · intro other old
      simp only [Function.update_of_ne (Nat.ne_of_lt (Nat.lt_of_lt_of_le old above)), widened.env other old]
    · rw [advance_cons rfl]
      simp only [executes, widened.memory, widened.block, quiet, valueInst]
      rfl

theorem exit_reduced (verified : cfg.Verified) (reduced : Reduced cfg after amounts) {config image : Config Datum World}
    (widened : Widened cfg backend amounts config image) :
    after.exit backend (cfg.block config.block).terminator image.env image.memory =
      cfg.exit backend (cfg.block config.block).terminator config.env config.memory ∧
        ∀ used ∈ (cfg.block config.block).terminator.uses, used < cfg.valueCount := by
  obtain ⟨done, located, _⟩ := widened.located
  have inside := located.live.inBounds verified.bounds
  have arena : ∀ used ∈ (cfg.block config.block).terminator.uses, used < cfg.valueCount := fun used member =>
    arena_of_available verified inside (List.prefix_refl _) (verified.terminatorUses _ located.live used member)
  refine ⟨?_, arena⟩
  rw [widened.memory]
  have same : after.exit backend ((cfg.block config.block).terminator.mapUses id) image.env config.memory =
      cfg.exit backend (cfg.block config.block).terminator config.env config.memory :=
    exit_congr backend config.memory (fun used member => widened.env used (arena used member))
      fun used member => reduced.ty (arena used member)
  rwa [Terminator.mapUses_id] at same

theorem reduced_simulates (verified : cfg.Verified) (formed : cfg.WellTyped fieldTy) (closed : cfg.Closed)
    (reduced : Reduced cfg after amounts) (backend : Backend Datum World) :
    Simulation (cfg.advance backend) (after.advance backend) (Widened cfg backend amounts) fun _ _ => 0 := by
  refine ⟨?_, ?_⟩
  · intro config image events next widened moved
    right
    obtain ⟨done, located, facts⟩ := widened.located
    rcases advance_step moved with ⟨value, rest, result, memory, head, executed, rfl, rfl⟩ |
      ⟨ended, rfl, target, args, leads, edge, rfl⟩
    · obtain ⟨ready, silent, readyBlock, readyEnv, follows⟩ := advance_reduced verified formed closed reduced widened head
      have split : (cfg.block config.block).insts = done ++ value :: rest := by rw [located.split, head]
      rw [executed] at follows
      refine ⟨ready, _, silent, follows, ⟨⟨_, located.execute head result memory, ?_⟩, rfl, rfl, rfl, ?_⟩⟩
      · exact facts.step verified (nothing_grounded cfg) constant_local located.live split (constant_established executed)
      · intro other old
        by_cases same : other = value
        · simp only [same, Function.update_self]
        · simp only [Function.update_of_ne same, readyEnv other old]
    · have stuck : image.rest = [] := by rw [widened.rest, ended]; rfl
      obtain ⟨leaves, arena⟩ := exit_reduced verified reduced widened
      have whole : (cfg.block config.block).insts = done := by rw [located.split, ended, List.append_nil]
      have passed : args.map image.env = args.map config.env := by
        apply List.map_congr_left
        intro arg member
        exact widened.env arg (arena arg (Terminator.edges_uses edge member))
      have targetInside := Live.inBounds verified.bounds (Lib.Reachable.step located.live (edge_of_edges edge))
      rw [leads] at leaves
      refine ⟨image, after.enter target (args.map config.env) image.env image.memory, .refl, ?_, ⟨⟨[], located.edge edge _ _, ?_⟩, rfl, ?_, widened.memory, ?_⟩⟩
      · rw [advance_nil stuck, widened.block, reduced.terminators, terminate, leaves]
      · apply Facts.edge verified (nothing_grounded cfg) constant_local located.live (edge_of_edges edge)
        rw [whole]
        exact facts
      · simp only [enter, reduced.insts targetInside]
      · intro other old
        simp only [enter, reduced.blocks target targetInside]
        exact bindParams_congr _ _ (widened.env other old)
  · intro config image events ending widened stopped
    rcases advance_stop stopped with ⟨value, rest, kind, world, head, executed, rfl, rfl⟩ | ⟨ended, rfl, leads⟩
    · obtain ⟨ready, silent, _, _, follows⟩ := advance_reduced verified formed closed reduced widened head
      rw [executed] at follows
      exact ⟨ready, silent, follows⟩
    · have stuck : image.rest = [] := by rw [widened.rest, ended]; rfl
      obtain ⟨leaves, _⟩ := exit_reduced verified reduced widened
      rw [leads] at leaves
      refine ⟨image, .refl, ?_⟩
      rw [advance_nil stuck, widened.block, reduced.terminators, terminate, leaves]

theorem reduced_shows_iff (verified : cfg.Verified) (formed : cfg.WellTyped fieldTy) (closed : cfg.Closed)
    (reduced : Reduced cfg after amounts) (backend : Backend Datum World) (env : CfgValue → Value Datum)
    (cells : Root → Ty → Value Datum) (world : World) (trace : List (Event Datum)) (ending : Option (Ending Datum World)) :
    cfg.Shows backend env cells world trace ending ↔ after.Shows backend env cells world trace ending := by
  apply (reduced_simulates verified formed closed reduced backend).observes_iff
  refine ⟨⟨[], Located.start env cells world, Facts.start verified⟩, reduced.entry, ?_, ?_, fun _ _ => rfl⟩
  · simp only [start, reduced.entry, reduced.insts verified.bounds.entry]
  · simp only [start, reduced.writable]

end Rue.Peephole

/-! Operations that return an operand: which they are, that they cannot trap and
that the operand is what they return. -/

namespace Rue.Peephole

open Cfg Lib

variable {Datum World : Type} {cfg : Cfg} {value target : CfgValue} {fieldTy : Nat → Nat → Nat → Ty}
  {env : CfgValue → Value Datum} {backend : Backend Datum World} {memory : Memory Datum World}

/-- An operand that changes nothing: zero or one, behind the other operand or in
front of it. -/
def neutral : BinaryOp → Bool → Option (BitVec 64)
  | .add, _ | .wrappingAdd, _ | .bitOr, _ | .bitXor, _ => some 0
  | .mul, _ | .wrappingMul, _ => some 1
  | .sub, true | .wrappingSub, true | .shl, true | .shr, true => some 0
  | .div, true => some 1
  | _, _ => none

inductive Identity (cfg : Cfg) (value target : CfgValue) : Prop where
  | behind (op : BinaryOp) (other : CfgValue) (image : BitVec 64) (shape : (cfg.inst value).data = .binary op target other)
      (constant : (cfg.inst other).data = .const image) (stays : neutral op true = some image) : Identity cfg value target
  | before (op : BinaryOp) (other : CfgValue) (image : BitVec 64) (shape : (cfg.inst value).data = .binary op other target)
      (constant : (cfg.inst other).data = .const image) (stays : neutral op false = some image) : Identity cfg value target
  | twice (op : BinaryOp) (shape : (cfg.inst value).data = .binary op target target) (same : op = .bitAnd ∨ op = .bitOr) :
      Identity cfg value target
  | negated (inner : CfgValue) (shape : (cfg.inst value).data = .unary .not inner)
      (again : (cfg.inst inner).data = .unary .not target) : Identity cfg value target

theorem identity_behind {op : BinaryOp} {a b : CfgValue} {image : BitVec 64} (shape : (cfg.inst value).data = .binary op a b)
    (stays : neutral op true = some image) (found : (if decide (constInt cfg b = some image) then some a else none) = some target) :
    Identity cfg value target := by
  split at found
  next constant =>
    cases found
    exact .behind op b image shape (constInt_eq.mp (of_decide_eq_true constant)) stays
  next => cases found

theorem identity_either {op : BinaryOp} {a b : CfgValue} {image : BitVec 64} (shape : (cfg.inst value).data = .binary op a b)
    (stays : neutral op true = some image) (starts : neutral op false = some image) {otherwise : Option CfgValue}
    (otherwiseIdentity : otherwise = some target → Identity cfg value target)
    (found : (if decide (constInt cfg b = some image) then some a
      else if decide (constInt cfg a = some image) then some b else otherwise) = some target) : Identity cfg value target := by
  split at found
  next constant =>
    cases found
    exact .behind op b image shape (constInt_eq.mp (of_decide_eq_true constant)) stays
  next =>
    split at found
    next constant =>
      cases found
      exact .before op a image shape (constInt_eq.mp (of_decide_eq_true constant)) starts
    next => exact otherwiseIdentity found

theorem identity_twice {op : BinaryOp} {a b : CfgValue} (shape : (cfg.inst value).data = .binary op a b)
    (same : op = .bitAnd ∨ op = .bitOr) (found : (if a = b then some a else none) = some target) : Identity cfg value target := by
  split at found
  next again =>
    subst again
    cases found
    exact .twice op shape same
  next => cases found

theorem identityTarget_identity (found : identityTarget cfg value = some target) :
    (cfg.inst value).ty.isFloat = false ∧ Identity cfg value target := by
  simp only [identityTarget] at found
  split at found
  next => cases found
  next whole =>
    refine ⟨by simpa using whole, ?_⟩
    split at found
    next shape => exact identity_either shape rfl rfl (by nofun) found
    next shape => exact identity_behind shape rfl found
    next shape => exact identity_either shape rfl rfl (by nofun) found
    next shape => exact identity_either shape rfl rfl (by nofun) found
    next shape => exact identity_behind shape rfl found
    next shape => exact identity_either shape rfl rfl (by nofun) found
    next shape => exact identity_behind shape rfl found
    next shape => exact identity_either shape rfl rfl (identity_twice shape (.inr rfl)) found
    next shape => exact identity_either shape rfl rfl (by nofun) found
    next shape => exact identity_twice shape (.inl rfl) found
    next shape => exact identity_behind shape rfl found
    next shape => exact identity_behind shape rfl found
    next inner shape =>
      split at found
      next again =>
        cases found
        exact .negated inner shape again
      next => cases found
    next => cases found

section

variable {format : IntFormat} {image : BitVec 64} (canonical : format.canonical image = image)

include canonical

theorem evalInteger_behind {op : BinaryOp} {other : BitVec 64} (wide : 2 ≤ format.bits) (stays : neutral op true = some other) :
    (evalInteger op format image other : Except TrapKind (Value Datum)) = .ok (.int image) := by
  have one := IntFormat.meaning_one wide
  have zero := IntFormat.meaning_zero format
  cases op with
  | add | sub =>
    cases stays
    simp only [evalInteger, zero, Int.add_zero, Int.sub_zero, IntFormat.checked_meaning canonical, orTrap]
  | mul =>
    cases stays
    simp only [evalInteger, one, Int.mul_one, IntFormat.checked_meaning canonical, orTrap]
  | div =>
    cases stays
    simp only [evalInteger, one, Int.one_ne_zero, if_false, IntFormat.quotient_one canonical, orTrap]
  | wrappingAdd | wrappingSub | wrappingMul | bitOr | bitXor =>
    cases stays
    simp [evalInteger, canonical]
  | shl =>
    cases stays
    simp only [evalInteger, IntFormat.shiftLeft_zero canonical]
  | shr =>
    cases stays
    simp only [evalInteger, IntFormat.shiftRight_zero canonical]
  | _ => cases stays

theorem evalInteger_before {op : BinaryOp} {other : BitVec 64} (wide : 2 ≤ format.bits) (stays : neutral op false = some other) :
    (evalInteger op format other image : Except TrapKind (Value Datum)) = .ok (.int image) := by
  have one := IntFormat.meaning_one wide
  have zero := IntFormat.meaning_zero format
  cases op with
  | add =>
    cases stays
    simp only [evalInteger, zero, Int.zero_add, IntFormat.checked_meaning canonical, orTrap]
  | mul =>
    cases stays
    simp only [evalInteger, one, Int.one_mul, IntFormat.checked_meaning canonical, orTrap]
  | wrappingAdd | wrappingMul | bitOr | bitXor =>
    cases stays
    simp [evalInteger, canonical]
  | _ => cases stays

theorem evalInteger_twice {op : BinaryOp} (same : op = .bitAnd ∨ op = .bitOr) :
    (evalInteger op format image image : Except TrapKind (Value Datum)) = .ok (.int image) := by
  rcases same with rfl | rfl
  · simp [evalInteger, canonical]
  · simp [evalInteger, canonical]

end

theorem wide_of_integer {ty : Ty} {format : IntFormat} (kind : ty.integer = some format) : 2 ≤ format.bits := by
  cases ty with
  | i8 | i16 | i32 | i64 | u8 | u16 | u32 | u64 =>
    cases kind
    decide
  | _ => cases kind

/-- What an instruction of the graph is known to have yielded. -/
structure Known (cfg : Cfg) (backend : Backend Datum World) (env : CfgValue → Value Datum) (value : CfgValue) : Prop where
  constant : ∀ image, (cfg.inst value).data = .const image → env value = backend.constant (cfg.inst value).ty image
  negation : ∀ operand, (cfg.inst value).data = .unary .not operand → env value = .bool (!backend.truthOf (env operand))
  identity : ∀ target, aliasOf cfg value = some target → env value = env target

/-- An identity of a reached block reads what is typed and known before it. -/
theorem Identity.execute (identity : Identity cfg value target) (whole : (cfg.inst value).ty.isFloat = false)
    (typed : cfg.InstTyped fieldTy (cfg.inst value)) (has : (cfg.inst value).ty.Has (env target))
    (constants : ∀ other image, other ∈ (cfg.inst value).data.uses → (cfg.inst other).data = .const image →
      env other = backend.constant (cfg.inst other).ty image)
    (negations : ∀ inner operand, inner ∈ (cfg.inst value).data.uses → (cfg.inst inner).data = .unary .not operand →
      env inner = .bool (!backend.truthOf (env operand))) :
    backend.execute cfg env memory value = .done (env target) memory := by
  have known : ∀ other image, other ∈ (cfg.inst value).data.uses → (cfg.inst other).data = .const image →
      (cfg.inst other).ty = (cfg.inst value).ty → env other = .int image := by
    intro other image use constant same
    rw [constants other image use constant, same, Backend.constant, whole]
    rfl
  have evaluates : ∀ {op lhs rhs}, (cfg.inst value).data = .binary op lhs rhs → op.isComparison = false →
      (∀ format image, 2 ≤ format.bits → format.canonical image = image → (cfg.inst lhs).ty = (cfg.inst value).ty →
        (cfg.inst rhs).ty = (cfg.inst value).ty → env target = .int image →
        evalInteger op format (backend.imageOf (env lhs)) (backend.imageOf (env rhs)) = .ok (.int image : Value Datum)) →
      backend.execute cfg env memory value = .done (env target) memory := by
    intro op lhs rhs shape plain same
    simp only [InstTyped, shape, plain, Bool.false_eq_true, if_false] at typed
    obtain ⟨left, right, numeric⟩ := typed
    have integral : (cfg.inst value).ty.integer ≠ none := by
      rcases numeric with integral | float
      · exact integral
      · rw [whole] at float
        cases float
    obtain ⟨format, kind⟩ := Option.ne_none_iff_exists'.mp integral
    obtain ⟨image, shapeTarget, canonical⟩ := has.integer format kind
    simp only [Backend.execute, shape, Backend.evalBinary, plain, Bool.false_eq_true, if_false, kind,
      same format image (wide_of_integer kind) canonical left right shapeTarget, Execution.ofResult, shapeTarget]
  cases identity with
  | behind op other image shape constant stays =>
    apply evaluates shape (by cases op <;> first | rfl | cases stays)
    intro format target' wide canonical _ right shapeTarget
    have divides := known other image (by rw [shape]; exact .tail _ (.head _)) constant right
    rw [shapeTarget, divides]
    exact evalInteger_behind canonical wide stays
  | before op other image shape constant stays =>
    apply evaluates shape (by cases op <;> first | rfl | cases stays)
    intro format target' wide canonical left _ shapeTarget
    have divides := known other image (by rw [shape]; exact .head _) constant left
    rw [shapeTarget, divides]
    exact evalInteger_before canonical wide stays
  | twice op shape same =>
    apply evaluates shape (by rcases same with rfl | rfl <;> rfl)
    intro format target' _ canonical _ _ shapeTarget
    rw [shapeTarget]
    exact evalInteger_twice canonical same
  | negated inner shape again =>
    simp only [InstTyped, shape] at typed
    obtain ⟨holds, truth⟩ := has.truth (typed.2 trivial)
    have once := negations inner target (by rw [shape]; exact .head _) again
    simp only [Backend.execute, shape, Backend.evalUnary, once, Execution.ofResult, truth, Backend.truthOf, Bool.not_not]

end Rue.Peephole
