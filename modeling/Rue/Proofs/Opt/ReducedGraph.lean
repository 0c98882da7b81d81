import Mathlib
import Rue.Proofs.Cfg.Typing
import Rue.Proofs.Opt.Reduction

/-! The graph with shifts and masks is as well formed as the one with divisions. -/

namespace Rue.Peephole

open Cfg Lib

variable {cfg after : Cfg} {amounts : Amounts} {block : BlockId} {value : CfgValue} {fieldTy : Nat → Nat → Nat → Ty}

/-- Where an instruction stands among the old ones and the constants. -/
theorem flatMap_expand_split {insts done rest : List CfgValue}
    (split : insts.flatMap (expand amounts) = done ++ value :: rest) :
    (∃ before behind, insts = before ++ value :: behind ∧ done = before.flatMap (expand amounts) ++ (amounts value).toList) ∨
      ∃ before owner behind, insts = before ++ owner :: behind ∧ amounts owner = some value := by
  induction insts generalizing done with
  | nil => simp at split
  | cons first insts ih =>
    rw [List.flatMap_cons, expand] at split
    have onward : ∀ {done'}, insts.flatMap (expand amounts) = done' ++ value :: rest →
        done = (amounts first).toList ++ first :: done' →
        (∃ before behind, first :: insts = before ++ value :: behind ∧
            done = before.flatMap (expand amounts) ++ (amounts value).toList) ∨
          ∃ before owner behind, first :: insts = before ++ owner :: behind ∧ amounts owner = some value := by
      rintro done' same rfl
      rcases ih same with ⟨before, behind, rfl, rfl⟩ | ⟨before, owner, behind, rfl, found⟩
      · refine .inl ⟨first :: before, behind, rfl, ?_⟩
        simp only [List.flatMap_cons, expand, List.append_assoc, List.cons_append, List.nil_append]
      · exact .inr ⟨first :: before, owner, behind, rfl, found⟩
    cases found : amounts first with
    | none =>
      simp only [found, Option.toList, List.nil_append, List.cons_append] at split onward
      cases done with
      | nil =>
        obtain ⟨rfl, _⟩ := List.cons.inj split
        exact .inl ⟨[], insts, rfl, by rw [found]; rfl⟩
      | cons head done =>
        obtain ⟨rfl, same⟩ := List.cons.inj split
        exact onward same rfl
    | some amount =>
      simp only [found, Option.toList, List.nil_append, List.cons_append] at split onward
      cases done with
      | nil =>
        obtain ⟨rfl, _⟩ := List.cons.inj split
        exact .inr ⟨[], first, insts, rfl, found⟩
      | cons head done =>
        obtain ⟨rfl, tail⟩ := List.cons.inj split
        cases done with
        | nil =>
          obtain ⟨rfl, _⟩ := List.cons.inj tail
          exact .inl ⟨[], insts, rfl, by rw [found]; rfl⟩
        | cons next done =>
          obtain ⟨rfl, same⟩ := List.cons.inj tail
          exact onward same rfl

theorem mem_flatMap_expand {insts : List CfgValue} :
    value ∈ insts.flatMap (expand amounts) ↔ value ∈ insts ∨ ∃ owner ∈ insts, amounts owner = some value := by
  simp only [List.mem_flatMap, expand, List.mem_append, Option.mem_toList, List.mem_singleton]
  constructor
  · rintro ⟨owner, member, found | rfl⟩
    · exact .inr ⟨owner, member, found⟩
    · exact .inl member
  · rintro (member | ⟨owner, member, found⟩)
    · exact ⟨value, member, .inr rfl⟩
    · exact ⟨owner, member, .inl found⟩

namespace Reduced

variable (reduced : Reduced cfg after amounts)

include reduced

theorem edge_eq : after.Edge = cfg.Edge := by
  funext source target
  rw [Edge, Edge, succs, succs, reduced.terminators]

theorem live_iff : after.Live block ↔ cfg.Live block := by
  rw [Live, Live, reduced.edge_eq, reduced.entry]

theorem dominates_iff {first : BlockId} : after.Dominates first block ↔ cfg.Dominates first block := by
  rw [Cfg.Dominates, Cfg.Dominates, reduced.edge_eq, reduced.entry]

theorem paramValues (inside : block < cfg.blockCount) : after.paramValues block = cfg.paramValues block := by
  rw [Cfg.paramValues, Cfg.paramValues, reduced.blocks block inside]

theorem insts (inside : block < cfg.blockCount) : (after.block block).insts = (cfg.block block).insts.flatMap (expand amounts) := by
  rw [reduced.blocks block inside]

theorem mem_insts (inside : block < cfg.blockCount) : value ∈ (after.block block).insts ↔
    value ∈ (cfg.block block).insts ∨ ∃ owner ∈ (cfg.block block).insts, amounts owner = some value := by
  rw [reduced.insts inside]
  exact mem_flatMap_expand

theorem amount_new {owner : CfgValue} (found : amounts owner = some value) : cfg.valueCount ≤ value := by
  obtain ⟨_, _, _, above, _⟩ := reduced.replaced owner value found
  exact above

theorem amount_shape {owner : CfgValue} (found : amounts owner = some value) : ∃ image ty, after.inst value = ⟨.const image, ty⟩ := by
  obtain ⟨_, _, _, above, below, _⟩ := reduced.replaced owner value found
  exact reduced.made value above below

theorem mem_defines_iff (inside : block < cfg.blockCount) : value ∈ after.defines block ↔
    value ∈ cfg.defines block ∨ ∃ owner ∈ (cfg.block block).insts, amounts owner = some value := by
  rw [mem_defines, mem_defines, reduced.mem_insts inside, reduced.paramValues inside, or_assoc]

end Reduced

theorem arena_of_insts (verified : cfg.Verified) (inside : block < cfg.blockCount) (member : value ∈ (cfg.block block).insts) :
    value < cfg.valueCount :=
  verified.inArena value (mem_definitions.mpr ⟨block, inside, mem_defines.mpr (.inr member)⟩)

theorem arena_of_available (verified : cfg.Verified) (inside : block < cfg.blockCount) {done : List CfgValue}
    (prefix' : done <+: (cfg.block block).insts) (available : cfg.Available block done value) : value < cfg.valueCount := by
  obtain ⟨other, otherInside, defined, _⟩ := available.definer inside prefix'
  exact verified.inArena value (mem_definitions.mpr ⟨other, otherInside, defined⟩)

theorem available_reduced (reduced : Reduced cfg after amounts) (inside : block < cfg.blockCount) {done more : List CfgValue}
    (available : cfg.Available block done value) (keeps : ∀ old ∈ done, old ∈ more) : after.Available block more value := by
  rcases available with param | earlier | ⟨other, otherInside, different, defined, dominates⟩
  · refine .inl ?_
    rw [reduced.paramValues inside]
    exact param
  · exact .inr (.inl (keeps value earlier))
  · refine .inr (.inr ⟨other, ?_, different, (reduced.mem_defines_iff otherInside).mpr (.inl defined), reduced.dominates_iff.mpr dominates⟩)
    rw [reduced.blockCount]
    exact otherInside

/-- What a replaced division reads: the numerator, and its constant. -/
theorem uses_reduced (reduced : Reduced cfg after amounts) {used : CfgValue} (inside : value < cfg.valueCount)
    (member : used ∈ (after.inst value).data.uses) : used ∈ (cfg.inst value).data.uses ∨ amounts value = some used := by
  cases shape : amounts value with
  | none =>
    rw [reduced.kept value inside shape] at member
    exact .inl member
  | some amount =>
    obtain ⟨found, taken, _, _, _, _, same⟩ := reduced.replaced value amount shape
    obtain ⟨divisor, power, reducible⟩ := reduction_reducible taken
    rw [same] at member
    simp only [CfgInstData.uses, CfgInstData.usesKinded, reads_fst, List.mem_cons, List.not_mem_nil, or_false] at member
    rcases member with rfl | rfl
    · left
      rcases reducible.shape with ⟨data, _⟩ | ⟨data, _⟩
      · rw [data]
        exact .head _
      · rw [data]
        exact .head _
    · exact .inr rfl

theorem reduced_verified (verified : cfg.Verified) (reduced : Reduced cfg after amounts) : after.Verified := by
  have count := reduced.blockCount
  refine ⟨?_, ?_, ?_, ?_, ?_, ?_, ?_, ?_, ?_, ?_, ?_⟩
  · refine ⟨?_, ?_⟩
    · rw [reduced.entry, count]
      exact verified.bounds.entry
    · intro block inside target edge
      rw [count] at inside ⊢
      rw [succs, reduced.terminators] at edge
      exact verified.bounds.targets block inside target edge
  · intro block inside
    rw [count] at inside
    rw [reduced.blocks block inside]
    exact verified.numbered block inside
  · rw [nodup_definitions, count]
    refine ⟨?_, ?_⟩
    · intro block inside
      have distinct := verified.nodup_defines inside
      rw [defines, List.nodup_append] at distinct ⊢
      rw [reduced.paramValues inside, reduced.insts inside]
      refine ⟨distinct.1, ?_, ?_⟩
      · rw [List.nodup_flatMap]
        refine ⟨?_, ?_⟩
        · intro value member
          rw [expand]
          cases found : amounts value with
          | none => exact List.nodup_singleton _
          | some amount =>
            have new := reduced.amount_new found
            have old := arena_of_insts verified inside member
            simp only [Option.toList, List.singleton_append, List.nodup_cons, List.mem_singleton, List.not_mem_nil, not_false_eq_true,
              List.nodup_nil, and_true]
            exact Nat.ne_of_gt (Nat.lt_of_lt_of_le old new)
        · apply distinct.2.1.imp_of_mem
          intro one other oneMember otherMember different value here there
          have oneOld := arena_of_insts verified inside oneMember
          have otherOld := arena_of_insts verified inside otherMember
          simp only [expand, List.mem_append, Option.mem_toList, List.mem_singleton] at here there
          rcases here with oneFound | rfl
          · rcases there with otherFound | rfl
            · exact different (reduced.apart one other value oneFound otherFound)
            · exact absurd (reduced.amount_new oneFound) (Nat.not_le_of_lt otherOld)
          · rcases there with otherFound | same
            · exact absurd (reduced.amount_new otherFound) (Nat.not_le_of_lt oneOld)
            · exact different same
      · intro param paramMember value member
        rcases mem_flatMap_expand.mp member with old | ⟨owner, _, found⟩
        · exact distinct.2.2 param paramMember value old
        · rintro rfl
          have old := verified.inArena param (mem_definitions.mpr ⟨block, inside, mem_defines.mpr (.inl paramMember)⟩)
          exact absurd (reduced.amount_new found) (Nat.not_le_of_lt old)
    · intro first firstInside second secondInside value here there
      rcases (reduced.mem_defines_iff firstInside).mp here with old | ⟨owner, ownerMember, found⟩
      · rcases (reduced.mem_defines_iff secondInside).mp there with again | ⟨owner, _, found⟩
        · exact verified.defines_unique firstInside secondInside old again
        · have arena := verified.inArena value (mem_definitions.mpr ⟨first, firstInside, old⟩)
          exact absurd (reduced.amount_new found) (Nat.not_le_of_lt arena)
      · rcases (reduced.mem_defines_iff secondInside).mp there with old | ⟨other, otherMember, again⟩
        · have arena := verified.inArena value (mem_definitions.mpr ⟨second, secondInside, old⟩)
          exact absurd (reduced.amount_new found) (Nat.not_le_of_lt arena)
        · have same := reduced.apart owner other value found again
          subst same
          exact verified.defines_unique firstInside secondInside (mem_defines.mpr (.inr ownerMember)) (mem_defines.mpr (.inr otherMember))
  · intro value member
    obtain ⟨block, inside, defined⟩ := mem_definitions.mp member
    rw [count] at inside
    rcases (reduced.mem_defines_iff inside).mp defined with old | ⟨owner, _, found⟩
    · exact Nat.lt_of_lt_of_le (verified.inArena value (mem_definitions.mpr ⟨block, inside, old⟩)) reduced.grows
    · obtain ⟨_, _, _, _, below, _⟩ := reduced.replaced owner value found
      exact below
  · intro block inside index value ty found
    rw [count] at inside
    rw [reduced.blocks block inside] at found
    have data := verified.params block inside index value ty found
    have arena := verified.inArena value (mem_definitions.mpr ⟨block, inside, mem_defines.mpr (.inl
      (List.mem_map.mpr ⟨_, List.mem_of_getElem? found, rfl⟩))⟩)
    have untouched : amounts value = none := by
      by_contra taken
      obtain ⟨amount, shape⟩ := Option.ne_none_iff_exists'.mp taken
      obtain ⟨_, reducible, _⟩ := reduced.replaced value amount shape
      obtain ⟨_, _, reducible⟩ := reduction_reducible reducible
      rcases reducible.shape with ⟨shape, _⟩ | ⟨shape, _⟩
      · rw [data] at shape
        cases shape
      · rw [data] at shape
        cases shape
    rw [reduced.kept value arena untouched, data]
  · intro block inside value member index shape
    rw [count] at inside
    rcases (reduced.mem_insts inside).mp member with old | ⟨owner, _, found⟩
    · have arena := arena_of_insts verified inside old
      cases taken : amounts value with
      | none =>
        rw [reduced.kept value arena taken] at shape
        exact verified.ordinary block inside value old index shape
      | some amount =>
        obtain ⟨_, _, _, _, _, _, same⟩ := reduced.replaced value amount taken
        rw [same] at shape
        cases shape
    · obtain ⟨image, ty, same⟩ := reduced.amount_shape found
      rw [same] at shape
      cases shape
  · intro block live target args edge
    rw [reduced.live_iff] at live
    have inside := live.inBounds verified.bounds
    rw [reduced.terminators] at edge
    have targetInside := Live.inBounds verified.bounds (Lib.Reachable.step live (edge_of_edges edge))
    rw [reduced.blocks target targetInside, ← verified.edges block live target args edge]
    apply List.map_congr_left
    intro arg member
    apply reduced.ty
    exact arena_of_available verified inside (List.prefix_refl _)
      (verified.terminatorUses block live arg (Terminator.edges_uses edge member))
  · intro block live done value rest split used member
    rw [reduced.live_iff] at live
    have inside := live.inBounds verified.bounds
    rw [reduced.insts inside] at split
    rcases flatMap_expand_split split with ⟨before, behind, old, rfl⟩ | ⟨_, owner, _, _, found⟩
    · have here : value ∈ (cfg.block block).insts := by rw [old]; simp
      rcases uses_reduced reduced (arena_of_insts verified inside here) member with known | added
      · apply available_reduced reduced inside (verified.uses block live before value behind old used known)
        intro earlier earlierMember
        exact List.mem_append_left _ (mem_flatMap_expand.mpr (.inl earlierMember))
      · exact .inr (.inl (List.mem_append_right _ (Option.mem_toList.mpr added)))
    · obtain ⟨image, ty, same⟩ := reduced.amount_shape found
      rw [same] at member
      cases member
  · intro block live used member
    rw [reduced.live_iff] at live
    have inside := live.inBounds verified.bounds
    rw [reduced.terminators] at member
    apply available_reduced reduced inside (verified.terminatorUses block live used member)
    intro old oldMember
    exact (reduced.mem_insts inside).mpr (.inl oldMember)
  · intro block live
    rw [reduced.terminators]
    exact verified.terminated block (reduced.live_iff.mp live)
  · intro block live cond thenBlock thenArgs elseBlock elseArgs shape
    rw [reduced.live_iff] at live
    have inside := live.inBounds verified.bounds
    rw [reduced.terminators] at shape
    rw [reduced.ty]
    · exact verified.conditions block live cond thenBlock thenArgs elseBlock elseArgs shape
    · apply arena_of_available verified inside (List.prefix_refl _)
      apply verified.terminatorUses block live
      rw [shape]
      exact .head _

/-- An available value that is no parameter is an instruction of a reached block. -/
theorem inst_of_available (verified : cfg.Verified) (live : cfg.Live block) {done : List CfgValue}
    (prefix' : done <+: (cfg.block block).insts) (available : cfg.Available block done value)
    (ordinary : ∀ index, (cfg.inst value).data ≠ .blockParam index) :
    ∃ other, cfg.Live other ∧ value ∈ (cfg.block other).insts := by
  have inside := live.inBounds verified.bounds
  obtain ⟨other, otherInside, defined, dominates⟩ := available.definer inside prefix'
  refine ⟨other, live_of_dominates dominates live, ?_⟩
  rcases mem_defines.mp defined with param | member
  · obtain ⟨⟨_, ty⟩, entry, rfl⟩ := List.mem_map.mp param
    obtain ⟨index, found⟩ := List.mem_iff_getElem?.mp entry
    have data := verified.params other otherInside index _ ty found
    exact absurd (by rw [data]) (ordinary index)
  · exact member

/-- The divisor that is replaced fits, so its power is below the width. -/
theorem small_of_reducible (verified : cfg.Verified) (formed : cfg.WellTyped fieldTy) (live : cfg.Live block)
    (member : value ∈ (cfg.block block).insts) {found : Reduction} {divisor : CfgValue} {power : Nat}
    (reducible : Reducible cfg value found divisor power) :
    ∃ format, (cfg.inst value).ty.integer = some format ∧ format.signed = false ∧ power < format.bits ∧
      (cfg.inst found.numerator).ty = (cfg.inst value).ty ∧ (cfg.inst divisor).ty = (cfg.inst value).ty := by
  obtain ⟨format, kind, unsigned⟩ := unsigned_of_isUnsigned reducible.unsigned
  have types : (cfg.inst found.numerator).ty = (cfg.inst value).ty ∧ (cfg.inst divisor).ty = (cfg.inst value).ty := by
    have typed := formed.insts block live value member
    simp only [InstTyped] at typed
    rcases reducible.shape with ⟨shape, _⟩ | ⟨shape, _⟩
    all_goals
      simp only [shape, BinaryOp.isComparison, Bool.false_eq_true, if_false] at typed
      exact ⟨typed.1, typed.2.1⟩
  have used : divisor ∈ (cfg.inst value).data.uses := by
    rcases reducible.shape with ⟨shape, _⟩ | ⟨shape, _⟩
    all_goals
      rw [shape]
      exact .tail _ (.head _)
  obtain ⟨done, rest, split⟩ := List.append_of_mem member
  have available := verified.uses block live done value rest split divisor used
  obtain ⟨other, otherLive, here⟩ := inst_of_available verified live ⟨_, split.symm⟩ available (by
    intro index shape
    rw [reducible.constant] at shape
    cases shape)
  have canonical := formed.insts other otherLive divisor here
  simp only [InstTyped, reducible.constant, types.2] at canonical
  exact ⟨format, kind, unsigned, small_of_canonical unsigned reducible.inside (canonical format kind), types⟩

theorem instTyped_congr {inst : CfgInst} (same : ∀ used ∈ inst.data.uses, (after.inst used).ty = (cfg.inst used).ty)
    (typed : cfg.InstTyped fieldTy inst) : after.InstTyped fieldTy inst := by
  simp only [InstTyped] at typed ⊢
  cases shape : inst.data with
  | binary op lhs rhs =>
    rw [shape] at same
    simp only [shape] at typed ⊢
    rw [same lhs (.head _), same rhs (.tail _ (.head _))]
    exact typed
  | unary op operand =>
    rw [shape] at same
    simp only [shape] at typed ⊢
    rw [same operand (.head _)]
    exact typed
  | placeWrite place stored =>
    rw [shape] at same
    simp only [shape] at typed ⊢
    rw [same stored (.head _)]
    exact typed
  | _ =>
    simp only [shape] at typed ⊢
    try exact typed

theorem placeholder_of_reduced (reduced : Reduced cfg after amounts) (inside : value < cfg.valueCount)
    (placeholder : after.IsPlaceholder value) : cfg.IsPlaceholder value := by
  obtain ⟨image, same⟩ := placeholder
  cases taken : amounts value with
  | none => exact ⟨image, by rw [← reduced.kept value inside taken, same]⟩
  | some amount =>
    obtain ⟨_, _, _, _, _, _, shape⟩ := reduced.replaced value amount taken
    rw [same] at shape
    cases shape

theorem reduced_typed (verified : cfg.Verified) (formed : cfg.WellTyped fieldTy) (reduced : Reduced cfg after amounts) :
    after.WellTyped fieldTy := by
  have inArena : ∀ block, cfg.Live block → ∀ value ∈ (cfg.block block).insts, ∀ used ∈ (cfg.inst value).data.uses,
      used < cfg.valueCount := by
    intro block live value member used use
    obtain ⟨done, rest, split⟩ := List.append_of_mem member
    exact arena_of_available verified (live.inBounds verified.bounds) ⟨_, split.symm⟩
      (verified.uses block live done value rest split used use)
  have small : ∀ block, cfg.Live block → ∀ value ∈ (cfg.block block).insts, ∀ amount, amounts value = some amount →
      ∃ (found : Reduction) (format : IntFormat) (power : Nat), (cfg.inst value).ty.integer = some format ∧ format.signed = false ∧ power < format.bits ∧
        (cfg.inst found.numerator).ty = (cfg.inst value).ty ∧ found.numerator < cfg.valueCount ∧
        (found.op = .shr ∧ found.amount = BitVec.ofNat 64 power ∨
          found.op = .bitAnd ∧ found.amount = BitVec.ofNat 64 (2 ^ power - 1)) ∧
        after.inst amount = ⟨.const found.amount, (cfg.inst value).ty⟩ ∧
        after.inst value = ⟨.binary found.op found.numerator amount, (cfg.inst value).ty⟩ := by
    intro block live value member amount taken
    obtain ⟨found, reduction, _, _, _, amountInst, valueInst⟩ := reduced.replaced value amount taken
    obtain ⟨divisor, power, reducible⟩ := reduction_reducible reduction
    obtain ⟨format, kind, unsigned, below, types, _⟩ := small_of_reducible verified formed live member reducible
    refine ⟨found, format, power, kind, unsigned, below, types, ?_, ?_, amountInst, valueInst⟩
    · apply inArena block live value member
      rcases reducible.shape with ⟨shape, _⟩ | ⟨shape, _⟩
      all_goals
        rw [shape]
        exact .head _
    · rcases reducible.shape with ⟨_, op, image⟩ | ⟨_, op, image⟩
      · exact .inl ⟨op, image⟩
      · refine .inr ⟨op, ?_⟩
        rw [image, twoPow_eq_ofNat]
        apply BitVec.eq_of_toNat_eq
        have narrow := format.narrow
        have positive := Nat.two_pow_pos power
        have wide : 2 ^ power < 2 ^ 64 := Nat.pow_lt_pow_right (by omega) (by omega)
        rw [BitVec.toNat_sub_of_le]
        · rw [BitVec.toNat_ofNat, BitVec.toNat_ofNat, Nat.mod_eq_of_lt wide, Nat.mod_eq_of_lt (by omega)]
          rfl
        · rw [BitVec.le_def, BitVec.toNat_ofNat, Nat.mod_eq_of_lt wide]
          exact positive
  refine ⟨?_, ?_, ?_, ?_⟩
  · intro block live value member
    rw [reduced.live_iff] at live
    have inside := live.inBounds verified.bounds
    rcases (reduced.mem_insts inside).mp member with old | ⟨owner, ownerMember, taken⟩
    · cases shape : amounts value with
      | none =>
        rw [reduced.kept value (arena_of_insts verified inside old) shape]
        exact instTyped_congr (fun used use => reduced.ty (inArena block live value old used use)) (formed.insts block live value old)
      | some amount =>
        obtain ⟨found, format, power, kind, _, _, types, arena, ops, amountInst, valueInst⟩ := small block live value old amount shape
        have plain : found.op.isComparison = false := by
          rcases ops with ⟨op, _⟩ | ⟨op, _⟩
          all_goals
            rw [op]
            rfl
        rw [valueInst]
        simp only [InstTyped, plain, Bool.false_eq_true, if_false, amountInst]
        refine ⟨?_, trivial, .inl ?_⟩
        · rw [reduced.ty arena, types]
        · rw [kind]
          exact Option.some_ne_none _
    · obtain ⟨found, format, power, kind, unsigned, below, _, _, ops, amountInst, _⟩ := small block live owner ownerMember value taken
      rw [amountInst]
      intro other same
      simp only [kind, Option.some.injEq] at same
      subst same
      have less : power < 2 ^ format.bits := Nat.lt_trans below Nat.lt_two_pow_self
      have few : 2 ^ power < 2 ^ format.bits := Nat.pow_lt_pow_right (by decide) below
      rcases ops with ⟨_, image⟩ | ⟨_, image⟩
      · rw [image]
        exact IntFormat.canonical_ofNat unsigned less
      · rw [image]
        exact IntFormat.canonical_ofNat unsigned (by omega)
  · intro block live value member used use
    rw [reduced.live_iff] at live
    have inside := live.inBounds verified.bounds
    rcases (reduced.mem_insts inside).mp member with old | ⟨owner, ownerMember, taken⟩
    · cases shape : amounts value with
      | none =>
        rw [reduced.kept value (arena_of_insts verified inside old) shape] at use
        have place := formed.places block live value old used use
        have arena := inArena block live value old used (CfgInstData.mem_uses_of_operandUses use)
        cases taken : amounts used with
        | none =>
          rw [IsPlaceRead, reduced.kept used arena taken]
          exact place
        | some amount =>
          obtain ⟨_, reduction, _⟩ := reduced.replaced used amount taken
          obtain ⟨_, _, reducible⟩ := reduction_reducible reduction
          rcases reducible.shape with ⟨shape, _⟩ | ⟨shape, _⟩
          all_goals
            rw [IsPlaceRead, shape] at place
            cases place
      | some amount =>
        obtain ⟨_, _, _, _, _, _, valueInst⟩ := reduced.replaced value amount shape
        rw [valueInst] at use
        simp [CfgInstData.operandUses, CfgInstData.usesKinded, reads] at use
    · obtain ⟨image, ty, same⟩ := reduced.amount_shape taken
      rw [same] at use
      cases use
  · intro block live value member used use placeholder
    rw [reduced.live_iff] at live
    have inside := live.inBounds verified.bounds
    rcases (reduced.mem_insts inside).mp member with old | ⟨owner, ownerMember, taken⟩
    · rcases uses_reduced reduced (arena_of_insts verified inside old) use with known | added
      · exact formed.operands block live value old used known
          (placeholder_of_reduced reduced (inArena block live value old used known) placeholder)
      · obtain ⟨_, format, _, kind, _, _, _, _, _, amountInst, _⟩ := small block live value old used added
        obtain ⟨image, same⟩ := placeholder
        rw [amountInst] at same
        rw [(CfgInst.mk.inj same).2] at kind
        cases kind
    · obtain ⟨image, ty, same⟩ := reduced.amount_shape taken
      rw [same] at use
      cases use
  · intro block live used use placeholder
    rw [reduced.live_iff] at live
    have inside := live.inBounds verified.bounds
    rw [reduced.terminators] at use
    apply formed.terminators block live used use
    exact placeholder_of_reduced reduced
      (arena_of_available verified inside (List.prefix_refl _) (verified.terminatorUses block live used use)) placeholder

end Rue.Peephole
