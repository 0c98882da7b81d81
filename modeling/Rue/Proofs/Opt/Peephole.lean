import Rue.Proofs.Cfg.Certificate
import Rue.Proofs.Opt.Rewiring

/-! The whole pass: it keeps every behaviour wherever it ends, and it ends unless
something reads an identity whose chain comes round. -/

namespace Rue.Peephole

open Cfg Lib Lib.Chains Relation

variable {Datum World : Type} {cfg after : Cfg} {amounts : Amounts} {value target : CfgValue}
  {fieldTy : Nat → Nat → Nat → Ty} {env : CfgValue → Value Datum} {backend : Backend Datum World}

/-- Read by something other than an identity operation: the ownership boundary, an
instruction or a terminator. -/
def ReadElsewhere (cfg : Cfg) (value : CfgValue) : Prop :=
  (value < cfg.valueCount ∧ cfg.isOwnershipBoundaryValue value = true) ∨
    (∃ reader < cfg.valueCount, aliasOf cfg reader = none ∧ value ∈ (cfg.inst reader).data.uses) ∨
    ∃ block < cfg.blockCount, value ∈ (cfg.block block).terminator.uses

theorem uses_dummyOut (reader : CfgValue) : ((dummyOut cfg (aliasOf cfg)).inst reader).data.uses =
    if aliasOf cfg reader = none then (cfg.inst reader).data.uses else [] := by
  cases found : aliasOf cfg reader with
  | none => simp only [dummyOut, found, Option.isSome_none, Bool.false_eq_true, if_false, if_true]
  | some target =>
    simp only [dummyOut, found, Option.isSome_some, if_true, reduceCtorEq, if_false]
    rfl

theorem mem_mappedValues : value ∈ mappedValues (dummyOut cfg (aliasOf cfg)) ↔ ReadElsewhere cfg value := by
  simp only [mappedValues, List.mem_append, List.mem_filter, List.mem_flatMap, List.mem_range, uses_dummyOut, ReadElsewhere,
    or_assoc]
  refine or_congr Iff.rfl (or_congr ?_ Iff.rfl)
  constructor
  · intro ⟨reader, inside, member⟩
    split at member
    next plain => exact ⟨reader, inside, plain, member⟩
    next => cases member
  · intro ⟨reader, inside, plain, member⟩
    exact ⟨reader, inside, by rwa [if_pos plain]⟩

theorem lt_of_alias (found : aliasOf cfg value ≠ none) : value < cfg.valueCount := by
  obtain ⟨target, found⟩ := Option.ne_none_iff_exists'.mp found
  exact (aliasOf_eq found).1

/-- Rewiring has a result unless a chain that is read comes round. -/
theorem rewireIdentities_none : rewireIdentities cfg = none ↔ ∃ value, ReadElsewhere cfg value ∧ RunsRound (aliasOf cfg) value := by
  simp only [rewireIdentities]
  split
  next empty =>
    refine ⟨nofun, ?_⟩
    intro ⟨value, _, round⟩
    obtain ⟨target, found, _⟩ := round.step
    have member : value ∈ (List.range cfg.valueCount).filter fun value => (aliasOf cfg value).isSome :=
      List.mem_filter.mpr ⟨List.mem_range.mpr (aliasOf_eq found).1, by rw [found]; rfl⟩
    rw [List.isEmpty_iff.mp empty] at member
    cases member
  next =>
    split
    next all =>
      refine ⟨nofun, ?_⟩
      intro ⟨value, read, round⟩
      have ends := List.all_eq_true.mp all value (mem_mappedValues.mpr read)
      rw [follow_of_runsRound _ round] at ends
      cases ends
    next unended =>
      refine ⟨fun _ => ?_, fun _ => rfl⟩
      rw [List.all_eq_true] at unended
      push Not at unended
      obtain ⟨value, read, unended⟩ := unended
      refine ⟨value, mem_mappedValues.mp read, runsRound_of_follow (fun _ => lt_of_alias) ?_⟩
      simpa using unended

theorem rewriteValueUses_id : cfg.rewriteValueUses id = cfg := by
  have boundary : (fun value => cfg.isOwnershipBoundaryValue value ||
      (List.range cfg.valueCount).any fun old => cfg.isOwnershipBoundaryValue old && id old = value) =
        cfg.isOwnershipBoundaryValue := by
    funext value
    cases held : cfg.isOwnershipBoundaryValue value with
    | true => rfl
    | false =>
      rw [Bool.false_or, List.any_eq_false]
      intro old _ both
      rw [Bool.and_eq_true, decide_eq_true_eq] at both
      obtain ⟨bound, rfl⟩ := both
      exact Bool.false_ne_true (held.symm.trans bound)
  simp only [rewriteValueUses, CfgInstData.mapUses_id, Terminator.mapUses_id, boundary]

theorem rewired_of_some {count : Nat} (ran : rewireIdentities cfg = some (after, count)) : ∃ map, Rewired cfg after map := by
  simp only [rewireIdentities] at ran
  split at ran
  next empty =>
    obtain ⟨rfl, _⟩ := Prod.mk.inj (Option.some.inj ran)
    have plain : ∀ value, aliasOf cfg value = none := by
      intro value
      by_contra found
      have member : value ∈ (List.range cfg.valueCount).filter fun value => (aliasOf cfg value).isSome :=
        List.mem_filter.mpr ⟨List.mem_range.mpr (lt_of_alias found), Option.isSome_iff_ne_none.mpr found⟩
      rw [List.isEmpty_iff.mp empty] at member
      cases member
    have same : dummyOut cfg (aliasOf cfg) = cfg := by
      simp only [dummyOut, plain, Option.isSome_none, Bool.false_eq_true, if_false]
    exact ⟨id, fun value _ => ⟨.refl, plain value⟩, by rw [same, rewriteValueUses_id]⟩
  next =>
    split at ran
    next all =>
      obtain ⟨rfl, _⟩ := Prod.mk.inj (Option.some.inj ran)
      refine ⟨_, ?_, rfl⟩
      intro value member
      obtain ⟨target, ends⟩ := Option.isSome_iff_exists.mp (List.all_eq_true.mp all value member)
      rw [ends]
      exact follow_ends ends
    next => cases ran

/-! The graph with shifts and masks has the identities the graph had. -/

theorem trailing_nonzero {found : Reduction} {divisor : CfgValue} {power : Nat} (reducible : Reducible cfg value found divisor power)
    (op : found.op = .shr) : found.amount ≠ 0 := by
  rcases reducible.shape with ⟨_, _, image⟩ | ⟨_, mask, _⟩
  · rw [image]
    intro zero
    have positive := reducible.positive
    have inside := reducible.inside
    have same := congrArg BitVec.toNat zero
    simp only [BitVec.toNat_ofNat, BitVec.ofNat_eq_ofNat] at same
    omega
  · rw [op] at mask
    cases mask

/-- A division by a power of two above one is no identity. -/
theorem identityTarget_reducible {found : Reduction} {divisor : CfgValue} {power : Nat}
    (reducible : Reducible cfg value found divisor power) : identityTarget cfg value = none := by
  have other : constInt cfg divisor ≠ some 1 := by
    rw [constInt_eq.mpr reducible.constant]
    intro same
    have bit := congrArg (fun image => BitVec.getLsbD image power) (Option.some.inj same)
    have positive := reducible.positive
    simp only [getLsbD_twoPow reducible.inside, decide_true] at bit
    simp at bit
    omega
  rcases reducible.shape with ⟨shape, _⟩ | ⟨shape, _⟩
  · simp only [identityTarget, shape, decide_eq_true_eq, if_neg other, ite_self]
  · simp only [identityTarget, shape, ite_self]

theorem identityTarget_replaced (closed : cfg.Closed) (reduced : Reduced cfg after amounts) {amount : CfgValue}
    (taken : amounts value = some amount) : identityTarget after value = none := by
  obtain ⟨found, reduction, inside, above, _, amountInst, valueInst⟩ := reduced.replaced value amount taken
  obtain ⟨divisor, power, reducible⟩ := reduction_reducible reduction
  have constant : constInt after amount = some found.amount := constInt_eq.mpr (by rw [amountInst])
  have numeratorUsed : found.numerator ∈ (cfg.inst value).data.uses := by
    rcases reducible.shape with ⟨shape, _⟩ | ⟨shape, _⟩
    all_goals
      rw [shape]
      exact .head _
  have different : found.numerator ≠ amount :=
    Nat.ne_of_lt (Nat.lt_of_lt_of_le (closed value inside found.numerator numeratorUsed) above)
  rcases reducible.shape with ⟨_, op, _⟩ | ⟨_, op, _⟩
  · have nonzero : ¬found.amount = 0 := trailing_nonzero reducible op
    simp only [identityTarget, valueInst, op, constant, Option.some.injEq, decide_eq_true_eq, if_neg nonzero, ite_self]
  · simp only [identityTarget, valueInst, op, if_neg different, ite_self]

/-- An identity is recognised by its operation, its constants and its negations. -/
theorem identityTarget_congr (same : after.inst value = cfg.inst value)
    (constants : ∀ used ∈ (cfg.inst value).data.uses, constInt after used = constInt cfg used)
    (negations : ∀ used ∈ (cfg.inst value).data.uses, ∀ inner,
      (after.inst used).data = .unary .not inner ↔ (cfg.inst used).data = .unary .not inner) :
    identityTarget after value = identityTarget cfg value := by
  simp only [identityTarget, same]
  split
  · rfl
  · cases shape : (cfg.inst value).data with
    | binary op a b =>
      rw [shape] at constants
      have left := constants a (.head _)
      have right := constants b (.tail _ (.head _))
      cases op <;> simp only [left, right]
    | unary op a =>
      rw [shape] at negations
      have negated := negations a (.head _)
      cases op with
      | not =>
        dsimp only
        split
        next inner found => rw [(negated inner).mp found]
        next other =>
          split
          next inner found => exact absurd ((negated inner).mpr found) (other inner)
          next => rfl
      | _ => rfl
    | _ => rfl

theorem not_reduced (reduced : Reduced cfg after amounts) (inside : value < cfg.valueCount) (inner : CfgValue) :
    (after.inst value).data = .unary .not inner ↔ (cfg.inst value).data = .unary .not inner := by
  cases taken : amounts value with
  | none => rw [reduced.kept value inside taken]
  | some amount =>
    obtain ⟨found, reduction, _, _, _, _, valueInst⟩ := reduced.replaced value amount taken
    obtain ⟨divisor, power, reducible⟩ := reduction_reducible reduction
    rw [valueInst]
    rcases reducible.shape with ⟨shape, _⟩ | ⟨shape, _⟩
    all_goals
      rw [shape]
      exact ⟨nofun, nofun⟩

theorem aliasOf_reduced (closed : cfg.Closed) (reduced : Reduced cfg after amounts) : aliasOf after = aliasOf cfg := by
  funext value
  rcases Nat.lt_or_ge value cfg.valueCount with old | new
  · rw [aliasOf, aliasOf, if_pos old, if_pos (Nat.lt_of_lt_of_le old reduced.grows)]
    cases taken : amounts value with
    | some amount =>
      obtain ⟨found, reduction, _⟩ := reduced.replaced value amount taken
      obtain ⟨divisor, power, reducible⟩ := reduction_reducible reduction
      rw [identityTarget_replaced closed reduced taken, identityTarget_reducible reducible]
    | none =>
      have uses := closed value old
      exact identityTarget_congr (reduced.kept value old taken) (fun used member => reduced.constInt (uses used member))
        fun used member => not_reduced reduced (uses used member)
  · rw [aliasOf, aliasOf, if_neg (Nat.not_lt_of_le new)]
    split
    next inside =>
      obtain ⟨image, ty, same⟩ := reduced.made value new inside
      simp only [identityTarget, same, ite_self]
    next => rfl

theorem readElsewhere_reduced (closed : cfg.Closed) (reduced : Reduced cfg after amounts) (round : RunsRound (aliasOf cfg) value) :
    ReadElsewhere after value ↔ ReadElsewhere cfg value := by
  have same := aliasOf_reduced closed reduced
  have old : value < cfg.valueCount := by
    obtain ⟨target, found, _⟩ := round.step
    exact (aliasOf_eq found).1
  have plain : ∀ {other : CfgValue} {image : BitVec 64}, (cfg.inst other).data = .const image → value ≠ other := by
    rintro other image shape rfl
    obtain ⟨target, found, _⟩ := round.step
    obtain ⟨_, _, identity⟩ := aliasOf_eq found
    cases identity with
    | behind op other image found => rw [shape] at found; cases found
    | before op other image found => rw [shape] at found; cases found
    | twice op found => rw [shape] at found; cases found
    | negated inner found => rw [shape] at found; cases found
  rw [ReadElsewhere, ReadElsewhere, same]
  refine or_congr ?_ (or_congr ?_ ?_)
  · rw [reduced.boundary]
    exact and_congr ⟨fun _ => old, fun _ => Nat.lt_of_lt_of_le old reduced.grows⟩ Iff.rfl
  · constructor
    · intro ⟨reader, inside, unaliased, member⟩
      rcases Nat.lt_or_ge reader cfg.valueCount with known | new
      · rcases uses_reduced reduced known member with use | amount
        · exact ⟨reader, known, unaliased, use⟩
        · obtain ⟨_, _, _, above, _⟩ := reduced.replaced reader value amount
          exact absurd old (Nat.not_lt_of_le above)
      · obtain ⟨image, ty, shape⟩ := reduced.made reader new inside
        rw [shape] at member
        cases member
    · intro ⟨reader, inside, unaliased, member⟩
      refine ⟨reader, Nat.lt_of_lt_of_le inside reduced.grows, unaliased, ?_⟩
      cases taken : amounts reader with
      | none => rwa [reduced.kept reader inside taken]
      | some amount =>
        obtain ⟨found, reduction, _, _, _, _, valueInst⟩ := reduced.replaced reader amount taken
        obtain ⟨divisor, power, reducible⟩ := reduction_reducible reduction
        rw [valueInst]
        have numerator : value = found.numerator := by
          have different := plain reducible.constant
          rcases reducible.shape with ⟨shape, _⟩ | ⟨shape, _⟩
          all_goals
            rw [shape] at member
            simpa [CfgInstData.uses, CfgInstData.usesKinded, different] using member
        rw [numerator]
        exact .head _
  · rw [reduced.blockCount]
    simp only [reduced.terminators]

/-- Values of the types that are asked for: of every slot, and of the parameters. -/
structure TypedInputs (cfg : Cfg) (env : CfgValue → Value Datum) (cells : Root → Ty → Value Datum) : Prop where
  cells : ∀ root (ty : Ty), ty.Has (cells root ty)
  params : ∀ value, value ∈ cfg.paramValues cfg.entry → (cfg.inst value).ty.Has (env value)

def Reaches (cfg : Cfg) (backend : Backend Datum World) (env : CfgValue → Value Datum) (cells : Root → Ty → Value Datum)
    (world : World) (config : Config Datum World) : Prop :=
  ∃ count trace, Runs (cfg.advance backend) count (cfg.start env cells world) trace config

/-- Every behaviour is kept; the divisions that are replaced and the identities that
are rewired do what is put in their place, without a trap; and no use of an
identity is left. -/
structure Exactly (fieldTy : Nat → Nat → Nat → Ty) (cfg after : Cfg) : Prop where
  shows : ∀ {Datum World : Type} (backend : Backend Datum World), backend.Typed fieldTy → ∀ env cells world,
    TypedInputs cfg env cells → ∀ trace ending,
      cfg.Shows backend env cells world trace ending ↔ after.Shows backend env cells world trace ending
  divisions : ∀ {Datum World : Type} (backend : Backend Datum World), backend.Typed fieldTy → ∀ env cells world,
    TypedInputs cfg env cells → ∀ config, Reaches cfg backend env cells world config → ∀ value rest found,
      config.rest = value :: rest → reduction cfg value = some found → ∃ result,
        backend.evalBinary found.op (cfg.inst value).ty (cfg.inst value).ty (config.env found.numerator) (.int found.amount) =
          .ok result ∧ backend.execute cfg config.env config.memory value = .done result config.memory
  identities : ∀ {Datum World : Type} (backend : Backend Datum World), backend.Typed fieldTy → ∀ env cells world,
    TypedInputs cfg env cells → ∀ config, Reaches cfg backend env cells world config → ∀ value rest target,
      config.rest = value :: rest → aliasOf cfg value = some target →
        backend.execute cfg config.env config.memory value = .done (config.env target) config.memory
  resolved : ∀ used, ((∃ reader < after.valueCount, used ∈ (after.inst reader).data.uses) ∨
    ∃ block < after.blockCount, used ∈ (after.block block).terminator.uses) → aliasOf cfg used = none

theorem standing_of_reaches (verified : cfg.Verified) (formed : cfg.WellTyped fieldTy) (sound : backend.Typed fieldTy)
    {cells : Root → Ty → Value Datum} {world : World} (inputs : TypedInputs cfg env cells) {config : Config Datum World}
    (reaches : Reaches cfg backend env cells world config) :
    ∃ done, cfg.Located config done ∧ cfg.Facts (Known cfg backend) config.env config.block done ∧ cfg.TypedAt config done := by
  obtain ⟨count, trace, run⟩ := reaches
  apply run.invariant
  · exact ⟨[], Located.start env cells world, Facts.start verified, TypedAt.start inputs.cells inputs.params⟩
  · intro config events next ⟨done, located, facts, typed⟩ moved
    rcases advance_step moved with ⟨value, rest, result, memory, head, executed, rfl, rfl⟩ |
      ⟨ended, rfl, target, args, leads, edge, rfl⟩
    · have split : (cfg.block config.block).insts = done ++ value :: rest := by rw [located.split, head]
      refine ⟨_, located.execute head result memory, ?_, typed.step verified formed sound located head executed⟩
      exact facts.step verified (depends_grounded verified) known_local located.live split
        (known_established verified formed located head facts typed executed)
    · have whole : (cfg.block config.block).insts = done := by rw [located.split, ended, List.append_nil]
      refine ⟨[], located.edge edge _ _, ?_, typed.edge verified formed located ended edge⟩
      apply Facts.edge verified (depends_grounded verified) known_local located.live (edge_of_edges edge)
      rw [whole]
      exact facts

theorem facts_constant {config : Config Datum World} {done : List CfgValue}
    (facts : cfg.Facts (Known cfg backend) config.env config.block done) :
    cfg.Facts (Constant cfg backend) config.env config.block done :=
  fun value inst available => (facts value inst available).constant

/-- After rewiring, what is used is at the end of its chain. -/
theorem resolved_rewired {map : CfgValue → CfgValue} (rewired : Rewired cfg after map) {used : CfgValue}
    (read : (∃ reader < after.valueCount, used ∈ (after.inst reader).data.uses) ∨
      ∃ block < after.blockCount, used ∈ (after.block block).terminator.uses) : aliasOf cfg used = none := by
  rcases read with ⟨reader, inside, member⟩ | ⟨block, inside, member⟩
  · cases found : aliasOf cfg reader with
    | some target =>
      rw [rewired.inst_of_some found] at member
      cases member
    | none =>
      rw [rewired.inst_of_none found, CfgInstData.uses_mapUses] at member
      obtain ⟨old, oldUsed, rfl⟩ := List.mem_map.mp member
      rw [rewired.made] at inside
      exact (rewired.resolved_use inside found oldUsed).2
  · rw [rewired.block_eq, Terminator.uses_mapUses] at member
    obtain ⟨old, oldUsed, rfl⟩ := List.mem_map.mp member
    rw [rewired.made] at inside
    exact (rewired.resolved_terminator inside oldUsed).2

theorem exactly_of_run {stats : Stats} (verified : cfg.Verified) (formed : cfg.WellTyped fieldTy) (closed : cfg.Closed)
    (ran : run cfg = some (after, stats)) : Exactly fieldTy cfg after := by
  obtain ⟨amounts, reduced⟩ := reduceUnsignedDivMod_reduced verified closed
  obtain ⟨⟨_, count⟩, rewrote, same⟩ := Option.map_eq_some_iff.mp ran
  obtain ⟨rfl, _⟩ := Prod.mk.inj same
  obtain ⟨map, rewired⟩ := rewired_of_some rewrote
  have stays := reduced_verified verified reduced
  have typed := reduced_typed verified formed reduced
  refine ⟨?_, ?_, ?_, ?_⟩
  · intro Datum World backend sound env cells world inputs trace ending
    refine (reduced_shows_iff verified formed closed reduced backend env cells world trace ending).trans ?_
    refine rewired_shows_iff stays typed sound rewired inputs.cells ?_ world trace ending
    intro value param
    rw [reduced.entry, reduced.paramValues verified.bounds.entry] at param
    have inside := verified.inArena value (mem_definitions.mpr ⟨_, verified.bounds.entry, mem_defines.mpr (.inl param)⟩)
    rw [reduced.ty inside]
    exact inputs.params value param
  · intro Datum World backend sound env cells world inputs config reaches value rest found head reduction
    obtain ⟨done, located, facts, _⟩ := standing_of_reaches verified formed sound inputs reaches
    have split : (cfg.block config.block).insts = done ++ value :: rest := by rw [located.split, head]
    obtain ⟨_, _, executes⟩ := execute_reducible verified formed located.live split (facts_constant facts) reduction config.memory
    obtain ⟨divisor, power, reducible⟩ := reduction_reducible reduction
    have steady : found.op ∉ [.add, .sub, .mul, .div, .mod] := by
      rcases reducible.shape with ⟨_, op, _⟩ | ⟨_, op, _⟩
      all_goals
        rw [op]
        decide
    obtain ⟨result, evaluates⟩ := evalBinary_quiet backend steady (cfg.inst value).ty (cfg.inst value).ty
      (config.env found.numerator) (.int found.amount)
    rw [evaluates] at executes
    exact ⟨result, evaluates, executes⟩
  · intro Datum World backend sound env cells world inputs config reaches value rest target head found
    obtain ⟨done, located, facts, typed⟩ := standing_of_reaches verified formed sound inputs reaches
    exact execute_standing verified formed located head facts typed found
  · intro used read
    rw [← aliasOf_reduced closed reduced]
    exact resolved_rewired rewired read

/-- The pass ends, and then keeps every behaviour, exactly when no identity that
something else reads leads into a cycle of identities. -/
theorem peephole_preserves_iff (verified : cfg.Verified) (formed : cfg.WellTyped fieldTy) (closed : cfg.Closed) :
    (∃ after stats, run cfg = some (after, stats) ∧ Exactly fieldTy cfg after) ↔
      ∀ value, ReadElsewhere cfg value → ¬RunsRound (aliasOf cfg) value := by
  obtain ⟨amounts, reduced⟩ := reduceUnsignedDivMod_reduced verified closed
  have same := aliasOf_reduced closed reduced
  constructor
  · intro ⟨after, stats, ran, _⟩ value read round
    have stuck := rewireIdentities_none.mpr ⟨value, (readElsewhere_reduced closed reduced round).mpr read, same ▸ round⟩
    simp only [run, stuck] at ran
    cases ran
  · intro straight
    have ends : rewireIdentities (reduceUnsignedDivMod cfg).1 ≠ none := by
      rw [Ne, rewireIdentities_none, same]
      intro ⟨value, read, round⟩
      exact straight value ((readElsewhere_reduced closed reduced round).mp read) round
    obtain ⟨⟨after, count⟩, rewrote⟩ := Option.ne_none_iff_exists'.mp ends
    have ran : run cfg = some (after, ⟨(reduceUnsignedDivMod cfg).2, count⟩) := by
      simp only [run, rewrote, Option.map_some]
    exact ⟨after, _, ran, exactly_of_run verified formed closed ran⟩

theorem live_alone (alone : cfg.succs cfg.entry = []) {block : BlockId} (live : cfg.Live block) : block = cfg.entry := by
  obtain ⟨done, path⟩ := live
  induction path with
  | start => rfl
  | step _ edge ih =>
    rw [ih, Edge, alone] at edge
    cases edge

/-- An unsigned division by four, read through an addition of zero. -/
def quarter : Cfg := ofTables [⟨.param 0, .u32⟩, ⟨.const 4, .u32⟩, ⟨.binary .div 0 1, .u32⟩, ⟨.const 0, .u32⟩, ⟨.binary .add 2 3, .u32⟩]
  [([], [0, 1, 2, 3, 4], .return' (some 4))]

/-- Two blocks that nothing reaches, each adding zero to the other's sum. -/
def circling : Cfg := ofTables [⟨.const 0, .i32⟩, ⟨.binary .add 2 0, .i32⟩, ⟨.binary .add 1 0, .i32⟩]
  [([], [], .return' none), ([], [0, 1], .return' (some 1)), ([], [2], .goto 1 [])]

theorem circling_not_preserved : circling.Verified ∧ circling.WellTyped (fun _ _ _ => .unit) ∧ circling.Closed ∧
    ¬∃ after stats, run circling = some (after, stats) ∧ Exactly (fun _ _ _ => .unit) circling after := by
  have verified : circling.Verified := by
    apply Verified.of_certified fun block => if block = 0 then [0] else if block = 1 then [1, 2] else [0, 1, 2]
    decide
  refine ⟨verified, ⟨?_, ?_, ?_, ?_⟩, ?_, ?_⟩
  · rintro block live value member
    rw [live_alone rfl live] at member
    cases member
  · rintro block live value member
    rw [live_alone rfl live] at member
    cases member
  · rintro block live value member
    rw [live_alone rfl live] at member
    cases member
  · rintro block live value member
    rw [live_alone rfl live] at member
    cases member
  · have all : ∀ value < 3, ∀ used ∈ (circling.inst value).data.uses, used < 3 := by decide
    exact all
  · intro ⟨after, stats, ran, _⟩
    have stuck : (run circling).isNone = true := by decide
    rw [ran] at stuck
    cases stuck

theorem quarter_preserved : ∃ after stats, run quarter = some (after, stats) ∧ Exactly (fun _ _ _ => .unit) quarter after := by
  have verified : quarter.Verified := by
    apply Verified.of_certified fun _ => [0]
    decide
  have formed : quarter.WellTyped fun _ _ _ => .unit := by
    have plain : ∀ value < 5, (quarter.inst value).ty ≠ .bool := by decide
    have placeholder : ∀ value < 5, ¬quarter.IsPlaceholder value := by
      intro value inside ⟨image, same⟩
      exact plain value inside (by rw [same])
    have bounds : ∀ value < 5, ∀ used ∈ (quarter.inst value).data.uses, used < 5 := by decide
    have inside : ∀ value ∈ (quarter.block 0).insts, value < 5 := by decide
    refine ⟨?_, ?_, ?_, ?_⟩
    · intro block live value member
      rw [live_alone rfl live] at member
      have small := inside value member
      rcases value with _ | _ | _ | _ | _ | value
      · trivial
      · exact fun format same => by cases same; decide
      · exact ⟨rfl, rfl, by decide⟩
      · exact fun format same => by cases same; decide
      · exact ⟨rfl, rfl, by decide⟩
      · exact absurd small (Nat.not_lt_of_le (Nat.le_add_left 5 value))
    · intro block live value member used address
      rw [live_alone rfl live] at member
      have none' : ∀ value < 5, ∀ use ∈ (quarter.inst value).data.operandUses, use.2 ≠ .address := by decide
      exact absurd rfl (none' value (inside value member) _ address)
    · intro block live value member used use
      rw [live_alone rfl live] at member
      exact placeholder used (bounds value (inside value member) used use)
    · intro block live used use
      rw [live_alone rfl live] at use
      have few : ∀ used ∈ (quarter.block 0).terminator.uses, used < 5 := by decide
      exact placeholder used (few used use)
  have closed : quarter.Closed := by
    have all : ∀ value < 5, ∀ used ∈ (quarter.inst value).data.uses, used < 5 := by decide
    exact all
  apply (peephole_preserves_iff verified formed closed).mpr
  intro value _ round
  have ends : ∀ value < 5, (follow (aliasOf quarter) 6 value).isSome = true := by decide
  obtain ⟨target, found, _⟩ := round.step
  have ended := ends value (aliasOf_eq found).1
  rw [follow_of_runsRound 6 round] at ended
  cases ended

end Rue.Peephole
