import Rue.Proofs.Opt.ReductionRun

/-! Every use pointed at the end of its chain of identities: the graph shows the
same, and uses no placeholder. -/

namespace Rue.Peephole

open Cfg Lib Lib.Chains Relation

variable {Datum World : Type} {cfg : Cfg} {block : BlockId} {value target used : CfgValue}
  {done rest : List CfgValue} {fieldTy : Nat → Nat → Nat → Ty} {env : CfgValue → Value Datum}
  {backend : Backend Datum World} {memory : Memory Datum World}

theorem aliasOf_eq (found : aliasOf cfg value = some target) :
    value < cfg.valueCount ∧ (cfg.inst value).ty.isFloat = false ∧ Identity cfg value target := by
  rw [aliasOf] at found
  split at found
  next inside => exact ⟨inside, identityTarget_identity found⟩
  next => cases found

theorem Identity.ordinary (identity : Identity cfg value target) (index : Nat) : (cfg.inst value).data ≠ .blockParam index := by
  intro same
  cases identity with
  | behind op other image shape => rw [same] at shape; cases shape
  | before op other image shape => rw [same] at shape; cases shape
  | twice op shape => rw [same] at shape; cases shape
  | negated inner shape => rw [same] at shape; cases shape

theorem Identity.quiet (identity : Identity cfg value target) : (cfg.inst value).data.hasObservableSideEffect = false := by
  cases identity with
  | behind op other image shape => rw [shape]; rfl
  | before op other image shape => rw [shape]; rfl
  | twice op shape => rw [shape]; rfl
  | negated inner shape => rw [shape]; rfl

/-- The target is read by the identity, or by the negation that it reads. -/
theorem Identity.reads (identity : Identity cfg value target) : target ∈ (cfg.inst value).data.uses ∨
    ∃ inner ∈ (cfg.inst value).data.uses, (cfg.inst value).data = .unary .not inner ∧
      (cfg.inst inner).data = .unary .not target := by
  cases identity with
  | behind op other image shape => rw [shape]; exact .inl (.head _)
  | before op other image shape => rw [shape]; exact .inl (.tail _ (.head _))
  | twice op shape => rw [shape]; exact .inl (.head _)
  | negated inner shape again => rw [shape]; exact .inr ⟨inner, .head _, rfl, again⟩

/-- What the facts about an instruction depend on. -/
def depends (cfg : Cfg) (value : CfgValue) : List CfgValue := (cfg.inst value).data.uses ++ (aliasOf cfg value).toList

theorem depends_grounded (verified : cfg.Verified) : cfg.Grounded (depends cfg) := by
  intro block live done value rest split used member
  rcases List.mem_append.mp member with use | target
  · exact verified.uses block live done value rest split used use
  · obtain ⟨_, _, identity⟩ := aliasOf_eq (Option.mem_toList.mp target)
    rcases identity.reads with use | ⟨inner, use, _, again⟩
    · exact verified.uses block live done value rest split used use
    · have available := verified.uses block live done value rest split inner use
      obtain ⟨other, otherLive, here⟩ := inst_of_available verified live ⟨_, split.symm⟩ available
        (fun index same => by rw [again] at same; cases same)
      apply available.dep verified verified.grounded live ⟨_, split.symm⟩ ⟨other, otherLive.inBounds verified.bounds, here⟩
      rw [again]
      exact .head _

theorem known_local : Cfg.Local (depends cfg) (Known cfg backend) := by
  intro env after value holds same others
  refine ⟨?_, ?_, ?_⟩
  · intro image shape
    rw [same, holds.constant image shape]
  · intro operand shape
    have read := others operand (List.mem_append_left _ (by rw [shape]; exact .head _))
    rw [same, read, holds.negation operand shape]
  · intro target found
    have read := others target (List.mem_append_right _ (Option.mem_toList.mpr found))
    rw [same, read, holds.identity target found]

/-- An identity of a reached block, where it stands. -/
structure Standing (cfg : Cfg) (block : BlockId) (done : List CfgValue) (value target : CfgValue) : Prop where
  available : cfg.Available block done target
  types : (cfg.inst target).ty = (cfg.inst value).ty
  genuine : ¬cfg.IsPlaceholder target

theorem standing (verified : cfg.Verified) (formed : cfg.WellTyped fieldTy) (live : cfg.Live block)
    (split : (cfg.block block).insts = done ++ value :: rest) (found : aliasOf cfg value = some target) :
    Standing cfg block done value target := by
  obtain ⟨_, whole, identity⟩ := aliasOf_eq found
  have member : value ∈ (cfg.block block).insts := by rw [split]; simp
  have available := depends_grounded verified block live done value rest split target
    (List.mem_append_right _ (Option.mem_toList.mpr found))
  have typed := formed.insts block live value member
  have arithmetic : ∀ {op lhs rhs}, (cfg.inst value).data = .binary op lhs rhs → op.isComparison = false →
      (cfg.inst lhs).ty = (cfg.inst value).ty ∧ (cfg.inst rhs).ty = (cfg.inst value).ty := by
    intro op lhs rhs shape plain
    simp only [InstTyped, shape, plain, Bool.false_eq_true, if_false] at typed
    exact ⟨typed.1, typed.2.1⟩
  cases identity with
  | behind op other image shape constant stays =>
    refine ⟨available, (arithmetic shape (by cases op <;> first | rfl | cases stays)).1, ?_⟩
    exact formed.operands block live value member target (by rw [shape]; exact .head _)
  | before op other image shape constant stays =>
    refine ⟨available, (arithmetic shape (by cases op <;> first | rfl | cases stays)).2, ?_⟩
    exact formed.operands block live value member target (by rw [shape]; exact .tail _ (.head _))
  | twice op shape same =>
    refine ⟨available, (arithmetic shape (by rcases same with rfl | rfl <;> rfl)).1, ?_⟩
    exact formed.operands block live value member target (by rw [shape]; exact .head _)
  | negated inner shape again =>
    have innerAvailable := verified.uses block live done value rest split inner (by rw [shape]; exact .head _)
    obtain ⟨other, otherLive, here⟩ := inst_of_available verified live ⟨_, split.symm⟩ innerAvailable
      (fun index same => by rw [again] at same; cases same)
    have innerTyped := formed.insts other otherLive inner here
    simp only [InstTyped, shape] at typed
    simp only [InstTyped, again] at innerTyped
    refine ⟨available, innerTyped.1.trans typed.1, ?_⟩
    exact formed.operands other otherLive inner here target (by rw [again]; exact .head _)

theorem execute_standing (verified : cfg.Verified) (formed : cfg.WellTyped fieldTy) {config : Config Datum World}
    (located : cfg.Located config done) (head : config.rest = value :: rest)
    (facts : cfg.Facts (Known cfg backend) config.env config.block done) (typed : cfg.TypedAt config done)
    (found : aliasOf cfg value = some target) :
    backend.execute cfg config.env config.memory value = .done (config.env target) config.memory := by
  obtain ⟨_, whole, identity⟩ := aliasOf_eq found
  have split : (cfg.block config.block).insts = done ++ value :: rest := by rw [located.split, head]
  have stands := standing verified formed located.live split found
  have isInst : ∀ other, other ∈ (cfg.inst value).data.uses → (∀ index, (cfg.inst other).data ≠ .blockParam index) →
      Known cfg backend config.env other := by
    intro other use ordinary
    have available := verified.uses _ located.live done value rest split other use
    obtain ⟨definer, definerLive, here⟩ := inst_of_available verified located.live ⟨_, split.symm⟩ available ordinary
    exact facts other ⟨definer, definerLive.inBounds verified.bounds, here⟩ available
  apply identity.execute whole (formed.insts _ located.live value (by rw [split]; simp))
  · rw [← stands.types]
    exact typed.values target stands.available stands.genuine
  · intro other image use constant
    exact (isInst other use fun index same => by rw [constant] at same; cases same).constant image constant
  · intro inner operand use again
    exact (isInst inner use fun index same => by rw [again] at same; cases same).negation operand again

theorem known_established (verified : cfg.Verified) (formed : cfg.WellTyped fieldTy) {config : Config Datum World}
    (located : cfg.Located config done) (head : config.rest = value :: rest)
    (facts : cfg.Facts (Known cfg backend) config.env config.block done) (typed : cfg.TypedAt config done)
    {result : Value Datum} {after : Memory Datum World}
    (executed : backend.execute cfg config.env config.memory value = .done result after) :
    Known cfg backend (Function.update config.env value result) value := by
  have split : (cfg.block config.block).insts = done ++ value :: rest := by rw [located.split, head]
  have other : ∀ used ∈ depends cfg value, Function.update config.env value result used = config.env used := by
    intro used member
    have available := depends_grounded verified _ located.live done value rest split used member
    exact Function.update_of_ne (available.ne_next verified located.live split) _ _
  refine ⟨constant_established executed, ?_, ?_⟩
  · intro operand shape
    rw [Function.update_self, other operand (List.mem_append_left _ (by rw [shape]; exact .head _))]
    simp only [Backend.execute, shape, Backend.evalUnary, Execution.ofResult] at executed
    exact (Execution.done.inj executed).1.symm
  · intro target found
    rw [Function.update_self, other target (List.mem_append_right _ (Option.mem_toList.mpr found))]
    rw [execute_standing verified formed located head facts typed found] at executed
    exact (Execution.done.inj executed).1.symm

/-- Along a chain from what is available, everything is available, of one type and
of one value. -/
theorem chain_available (verified : cfg.Verified) (formed : cfg.WellTyped fieldTy) (live : cfg.Live block)
    (prefix' : done <+: (cfg.block block).insts) (facts : cfg.Facts (Known cfg backend) env block done)
    (leads : ReflTransGen (Goes (aliasOf cfg)) value target) (available : cfg.Available block done value) :
    cfg.Available block done target ∧ (cfg.inst target).ty = (cfg.inst value).ty ∧ env target = env value := by
  induction leads with
  | refl => exact ⟨available, rfl, rfl⟩
  | @tail middle target _ same ih =>
    obtain ⟨middleAvailable, types, values⟩ := ih
    obtain ⟨_, _, identity⟩ := aliasOf_eq same
    obtain ⟨definer, definerLive, here⟩ := inst_of_available verified live prefix' middleAvailable identity.ordinary
    have inst : cfg.IsInst middle := ⟨definer, definerLive.inBounds verified.bounds, here⟩
    obtain ⟨before, behind, split⟩ := List.append_of_mem here
    have stands := standing verified formed definerLive split same
    refine ⟨?_, stands.types.trans types, ?_⟩
    · apply middleAvailable.dep verified (depends_grounded verified) live prefix' inst
      exact List.mem_append_right _ (Option.mem_toList.mpr same)
    · exact ((facts middle inst middleAvailable).identity target same).symm.trans values

/-- The uses, each at the end of its chain, and the placeholders. -/
structure Rewired (cfg after : Cfg) (map : CfgValue → CfgValue) : Prop where
  resolved : ∀ value ∈ mappedValues (dummyOut cfg (aliasOf cfg)),
    ReflTransGen (Goes (aliasOf cfg)) value (map value) ∧ aliasOf cfg (map value) = none
  made : after = (dummyOut cfg (aliasOf cfg)).rewriteValueUses map

namespace Rewired

variable {after : Cfg} {map : CfgValue → CfgValue} (rewired : Rewired cfg after map)

include rewired

theorem inst_of_none (plain : aliasOf cfg value = none) :
    after.inst value = { cfg.inst value with data := (cfg.inst value).data.mapUses map } := by
  simp only [rewired.made, rewriteValueUses, dummyOut, plain, Option.isSome_none, Bool.false_eq_true, if_false]

theorem inst_of_some (found : aliasOf cfg value = some target) : after.inst value = { cfg.inst value with data := .const 0 } := by
  simp only [rewired.made, rewriteValueUses, dummyOut, found, Option.isSome_some, if_true]
  rfl

theorem ty : (after.inst value).ty = (cfg.inst value).ty := by
  cases shape : aliasOf cfg value with
  | none => rw [rewired.inst_of_none shape]
  | some target => rw [rewired.inst_of_some shape]

theorem block_eq : after.block block = { cfg.block block with terminator := (cfg.block block).terminator.mapUses map } := by
  rw [rewired.made]
  rfl

theorem resolved_use (inside : value < cfg.valueCount) (plain : aliasOf cfg value = none)
    (member : used ∈ (cfg.inst value).data.uses) :
    ReflTransGen (Goes (aliasOf cfg)) used (map used) ∧ aliasOf cfg (map used) = none := by
  apply rewired.resolved
  refine List.mem_append_left _ (List.mem_append_right _ (List.mem_flatMap.mpr ⟨value, List.mem_range.mpr inside, ?_⟩))
  simp only [dummyOut, plain, Option.isSome_none, Bool.false_eq_true, if_false]
  exact member

theorem resolved_terminator (inside : block < cfg.blockCount) (member : used ∈ (cfg.block block).terminator.uses) :
    ReflTransGen (Goes (aliasOf cfg)) used (map used) ∧ aliasOf cfg (map used) = none :=
  rewired.resolved used (List.mem_append_right _ (List.mem_flatMap.mpr ⟨block, List.mem_range.mpr inside, member⟩))

end Rewired

structure Matched (cfg : Cfg) (backend : Backend Datum World) (config image : Config Datum World) : Prop where
  located : ∃ done, cfg.Located config done ∧ cfg.Facts (Known cfg backend) config.env config.block done ∧
    cfg.TypedAt config done ∧ ∀ value, cfg.Available config.block done value → aliasOf cfg value = none →
      image.env value = config.env value
  block : image.block = config.block
  rest : image.rest = config.rest
  memory : image.memory = config.memory

variable {after : Cfg} {map : CfgValue → CfgValue} {config image : Config Datum World}

theorem aliasOf_placeRead (place : cfg.IsPlaceRead value) : aliasOf cfg value = none := by
  by_contra found
  obtain ⟨target, found⟩ := Option.ne_none_iff_exists'.mp found
  obtain ⟨_, _, identity⟩ := aliasOf_eq found
  rw [IsPlaceRead] at place
  cases identity with
  | behind op other image shape => rw [shape] at place; exact place
  | before op other image shape => rw [shape] at place; exact place
  | twice op shape => rw [shape] at place; exact place
  | negated inner shape => rw [shape] at place; exact place

theorem eq_of_chain (leads : ReflTransGen (Goes (aliasOf cfg)) used target) (plain : aliasOf cfg used = none) : target = used := by
  rcases ReflTransGen.cases_head leads with same | ⟨next, found, _⟩
  · exact same.symm
  · rw [Goes, plain] at found
    cases found

/-- The end of a chain from what is available has the value the chain starts with. -/
theorem read_end (verified : cfg.Verified) (formed : cfg.WellTyped fieldTy) (live : cfg.Live block)
    (prefix' : done <+: (cfg.block block).insts) (facts : cfg.Facts (Known cfg backend) env block done)
    {env' : CfgValue → Value Datum}
    (agree : ∀ value, cfg.Available block done value → aliasOf cfg value = none → env' value = env value)
    (ends : ReflTransGen (Goes (aliasOf cfg)) used target ∧ aliasOf cfg target = none)
    (available : cfg.Available block done used) : (cfg.inst target).ty = (cfg.inst used).ty ∧ env' target = env used := by
  obtain ⟨targetAvailable, types, values⟩ := chain_available verified formed live prefix' facts ends.1 available
  exact ⟨types, (agree target targetAvailable ends.2).trans values⟩

theorem agrees_rewired (verified : cfg.Verified) (formed : cfg.WellTyped fieldTy) (rewired : Rewired cfg after map)
    (live : cfg.Live block) (split : (cfg.block block).insts = done ++ value :: rest)
    (facts : cfg.Facts (Known cfg backend) env block done) {env' : CfgValue → Value Datum}
    (agree : ∀ value, cfg.Available block done value → aliasOf cfg value = none → env' value = env value)
    (plain : aliasOf cfg value = none) : cfg.Agrees env after env' map (cfg.inst value).data := by
  have inside := live.inBounds verified.bounds
  have member : value ∈ (cfg.block block).insts := by rw [split]; simp
  have arena := arena_of_insts verified inside member
  have prefix' : done <+: (cfg.block block).insts := ⟨_, split.symm⟩
  rintro ⟨used, kind⟩ use
  have isUse := CfgInstData.mem_uses_of_operandUses use
  have available := verified.uses block live done value rest split used isUse
  have ends := rewired.resolved_use arena plain isUse
  cases kind with
  | value =>
    obtain ⟨types, values⟩ := read_end verified formed live prefix' facts agree ends available
    exact operand_value (rewired.ty.trans types) values
  | address =>
    -- A by-reference operand is the read of a place: it is no identity, and what it reads is available.
    have place := formed.places block live value member used use
    have usedPlain := aliasOf_placeRead place
    have stays := eq_of_chain ends.1 usedPlain
    have usedOrdinary : ∀ index, (cfg.inst used).data ≠ .blockParam index := by
      intro index same
      rw [IsPlaceRead, same] at place
      exact place
    obtain ⟨definer, definerLive, here⟩ := inst_of_available verified live prefix' available usedOrdinary
    have usedInst : cfg.IsInst used := ⟨definer, definerLive.inBounds verified.bounds, here⟩
    have usedArena := arena_of_insts verified (definerLive.inBounds verified.bounds) here
    simp only [operand, stays]
    refine Prod.ext rewired.ty ?_
    simp only [placeOf, rewired.inst_of_none usedPlain]
    rw [IsPlaceRead] at place
    cases shape : (cfg.inst used).data with
    | load | param => rfl
    | placeRead read =>
      simp only [CfgInstData.mapUses]
      congr 1
      apply locate_mapUses
      intro operand operandUse
      have operandUsed : operand ∈ (cfg.inst used).data.uses := by
        simpa [shape, CfgInstData.uses, CfgInstData.usesKinded] using operandUse
      have operandAvailable := available.dep verified verified.grounded live prefix' usedInst operandUsed
      exact (read_end verified formed live prefix' facts agree (rewired.resolved_use usedArena usedPlain operandUsed)
        operandAvailable).2
    | _ => rw [shape] at place; exact absurd place id

/-- What the rewritten graph does next: the same, and nothing where the identity was. -/
theorem advance_rewired (verified : cfg.Verified) (formed : cfg.WellTyped fieldTy) (rewired : Rewired cfg after map)
    (located : cfg.Located config done) (head : config.rest = value :: rest)
    (facts : cfg.Facts (Known cfg backend) config.env config.block done) (typed : cfg.TypedAt config done)
    (agree : ∀ value, cfg.Available config.block done value → aliasOf cfg value = none → image.env value = config.env value)
    (block : image.block = config.block) (same : image.rest = config.rest) (memory : image.memory = config.memory) :
    ∃ made : Value Datum → Value Datum, (aliasOf cfg value = none → made = id) ∧ after.advance backend image =
      match backend.execute cfg config.env config.memory value with
      | .done result memory =>
        .step (if (cfg.inst value).data.hasObservableSideEffect then [cfg.event config.env value] else [])
          ⟨config.block, rest, Function.update image.env value (made result), memory⟩
      | .trap kind world =>
        .stop (if (cfg.inst value).data.hasObservableSideEffect then [cfg.event config.env value] else [])
          (.trapped kind world) := by
  have inside := located.live.inBounds verified.bounds
  have split : (cfg.block config.block).insts = done ++ value :: rest := by rw [located.split, head]
  have ahead : image.rest = value :: rest := same.trans head
  cases found : aliasOf cfg value with
  | none =>
    have agrees := agrees_rewired verified formed rewired located.live split facts agree found
    have shape := rewired.inst_of_none found
    refine ⟨id, fun _ => rfl, ?_⟩
    rw [advance_cons ahead, memory, block, execute_congr backend config.memory (by rw [shape]) rewired.ty
      (verified.ordinary _ inside value (by rw [split]; simp)) agrees, event_congr (by rw [shape]) rewired.ty agrees, shape,
      CfgInstData.hasObservableSideEffect_mapUses]
    rfl
  | some target =>
    obtain ⟨_, _, identity⟩ := aliasOf_eq found
    have executes := @execute_standing _ _ _ _ _ _ _ _ backend verified formed config located head facts typed found
    refine ⟨fun _ => backend.constant (cfg.inst value).ty 0, (by nofun), ?_⟩
    rw [advance_cons ahead, executes, identity.quiet]
    simp only [Backend.execute, rewired.inst_of_some found, memory, block, CfgInstData.hasObservableSideEffect,
      Bool.false_eq_true, if_false]

theorem exit_rewired (verified : cfg.Verified) (formed : cfg.WellTyped fieldTy) (rewired : Rewired cfg after map)
    (located : cfg.Located config done) (ended : config.rest = [])
    (facts : cfg.Facts (Known cfg backend) config.env config.block done)
    (agree : ∀ value, cfg.Available config.block done value → aliasOf cfg value = none → image.env value = config.env value)
    (memory : image.memory = config.memory) :
    after.exit backend (after.block config.block).terminator image.env image.memory =
      cfg.exit backend (cfg.block config.block).terminator config.env config.memory := by
  have inside := located.live.inBounds verified.bounds
  have whole : (cfg.block config.block).insts = done := by rw [located.split, ended, List.append_nil]
  have read : ∀ used ∈ (cfg.block config.block).terminator.uses,
      (cfg.inst (map used)).ty = (cfg.inst used).ty ∧ image.env (map used) = config.env used := by
    intro used member
    apply read_end verified formed located.live (by rw [whole]) facts agree (rewired.resolved_terminator inside member)
    rw [← whole]
    exact verified.terminatorUses _ located.live used member
  rw [rewired.block_eq, memory]
  exact exit_congr backend config.memory (fun used member => (read used member).2)
    fun used member => rewired.ty.trans (read used member).1

/-- The rewritten graph does what the graph does, move by move. -/
theorem rewired_simulates (verified : cfg.Verified) (formed : cfg.WellTyped fieldTy) (sound : backend.Typed fieldTy)
    (rewired : Rewired cfg after map) :
    Simulation (cfg.advance backend) (after.advance backend) (Matched cfg backend) fun _ _ => 0 := by
  refine ⟨?_, ?_⟩
  · intro config image events next matched moved
    right
    obtain ⟨done, located, facts, typed, agree⟩ := matched.located
    rcases advance_step moved with ⟨value, rest, result, memory, head, executed, rfl, rfl⟩ |
      ⟨ended, rfl, target, args, leads, edge, rfl⟩
    · obtain ⟨made, plain, follows⟩ := advance_rewired verified formed rewired located head facts typed agree matched.block
        matched.rest matched.memory
      have split : (cfg.block config.block).insts = done ++ value :: rest := by rw [located.split, head]
      rw [executed] at follows
      refine ⟨image, _, .refl, follows, ⟨⟨_, located.execute head result memory, ?_, ?_, ?_⟩, rfl, rfl, rfl⟩⟩
      · exact facts.step verified (depends_grounded verified) known_local located.live split
          (known_established verified formed located head facts typed executed)
      · exact typed.step verified formed sound located head executed
      · intro other available unaliased
        by_cases same : other = value
        · subst same
          simp only [Function.update_self, plain unaliased, id]
        · simp only [Function.update_of_ne same]
          exact agree other (available.of_snoc same) unaliased
    · have leaves := exit_rewired verified formed rewired located ended facts agree matched.memory
      have stuck : image.rest = [] := matched.rest.trans ended
      have whole : (cfg.block config.block).insts = done := by rw [located.split, ended, List.append_nil]
      rw [leads] at leaves
      refine ⟨image, after.enter target (args.map config.env) image.env image.memory, .refl, ?_,
        ⟨⟨[], located.edge edge _ _, ?_, typed.edge verified formed located ended edge, ?_⟩, rfl, ?_, matched.memory⟩⟩
      · rw [advance_nil stuck, matched.block, terminate, leaves]
      · apply Facts.edge verified (depends_grounded verified) known_local located.live (edge_of_edges edge)
        rw [whole]
        exact facts
      · intro value available unaliased
        simp only [enter, rewired.block_eq]
        by_cases param : value ∈ cfg.paramValues target
        · have types := congrArg List.length (verified.edges _ located.live target args edge)
          have lengths : (cfg.block target).params.length = (args.map config.env).length := by simpa using types.symm
          obtain ⟨index, ty, _, bound⟩ := bindParams_bound lengths param
          exact Option.some.inj ((bound image.env).symm.trans (bound config.env))
        · rw [bindParams_of_notMem _ _ param, bindParams_of_notMem _ _ param]
          apply agree value _ unaliased
          rw [← whole]
          exact available.edge (edge_of_edges edge) param
      · simp only [enter, rewired.block_eq]
  · intro config image events ending matched stopped
    obtain ⟨done, located, facts, typed, agree⟩ := matched.located
    rcases advance_stop stopped with ⟨value, rest, kind, world, head, executed, rfl, rfl⟩ | ⟨ended, rfl, leads⟩
    · obtain ⟨made, _, follows⟩ := advance_rewired verified formed rewired located head facts typed agree matched.block
        matched.rest matched.memory
      rw [executed] at follows
      exact ⟨image, .refl, follows⟩
    · have leaves := exit_rewired verified formed rewired located ended facts agree matched.memory
      rw [leads] at leaves
      refine ⟨image, .refl, ?_⟩
      rw [advance_nil (matched.rest.trans ended), matched.block, terminate, leaves]

theorem rewired_shows_iff (verified : cfg.Verified) (formed : cfg.WellTyped fieldTy) (sound : backend.Typed fieldTy)
    (rewired : Rewired cfg after map) {cells : Root → Ty → Value Datum} (typed : ∀ root (ty : Ty), ty.Has (cells root ty))
    (entered : ∀ value, value ∈ cfg.paramValues cfg.entry → (cfg.inst value).ty.Has (env value)) (world : World)
    (trace : List (Event Datum)) (ending : Option (Ending Datum World)) :
    cfg.Shows backend env cells world trace ending ↔ after.Shows backend env cells world trace ending := by
  have same : after.entry = cfg.entry ∧ after.isParamWritable = cfg.isParamWritable := by
    rw [rewired.made]
    exact ⟨rfl, rfl⟩
  apply (rewired_simulates verified formed sound rewired).observes_iff
  refine ⟨⟨[], Located.start env cells world, Facts.start verified, TypedAt.start typed entered, fun _ _ _ => rfl⟩, same.1, ?_, ?_⟩
  · simp only [start, rewired.block_eq, same.1]
  · simp only [start, same.2]

end Rue.Peephole
