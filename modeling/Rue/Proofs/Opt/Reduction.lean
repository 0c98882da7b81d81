import Mathlib.Data.List.Induction
import Rue.Cfg.Typed
import Rue.Opt.Peephole
import Rue.Proofs.Cfg.Machine

/-! Shifts and masks for unsigned divisions: what they compute, and what the
sweep over the blocks leaves in the graph. -/

namespace Rue.Peephole

open Cfg Lib

variable {Datum World : Type} {cfg : Cfg} {value : CfgValue} {d : BitVec 64} {power : Nat}

theorem getLsbD_twoPow (inside : power < 64) (index : Nat) :
    (BitVec.twoPow 64 power).getLsbD index = decide (index = power) := by
  rw [BitVec.getLsbD_twoPow]
  simp [inside, eq_comm]

theorem isPowerOfTwo_iff : isPowerOfTwo d = true ↔ ∃ power < 64, d = BitVec.twoPow 64 power := by
  rw [isPowerOfTwo, decide_eq_true_eq, List.countP_eq_length_filter, List.length_eq_one_iff]
  constructor
  · intro ⟨power, only⟩
    have bit : ∀ index, index < 64 ∧ d.getLsbD index = true ↔ index = power := by
      intro index
      have member := @List.mem_filter _ (d.getLsbD ·) (List.range 64) index
      rw [only, List.mem_range, List.mem_singleton] at member
      exact member.symm
    have here := (bit power).mpr rfl
    refine ⟨power, here.1, ?_⟩
    apply BitVec.eq_of_getLsbD_eq
    intro index inside
    rw [getLsbD_twoPow here.1, Bool.eq_iff_iff, decide_eq_true_eq, ← bit]
    exact (and_iff_right inside).symm
  · rintro ⟨power, inside, rfl⟩
    refine ⟨power, ?_⟩
    simp only [getLsbD_twoPow inside]
    revert power
    decide

theorem trailingZeros_twoPow (inside : power < 64) : trailingZeros (BitVec.twoPow 64 power) = power := by
  simp only [trailingZeros, getLsbD_twoPow inside]
  revert power
  decide

theorem reduceBy_eq {numerator : CfgValue} {isDiv : Bool} {found : Reduction} (reduced : reduceBy d numerator isDiv = some found) :
    ∃ power, 0 < power ∧ power < 64 ∧ d = BitVec.twoPow 64 power ∧
      found = if isDiv then ⟨.shr, numerator, BitVec.ofNat 64 power⟩ else ⟨.bitAnd, numerator, d - 1⟩ := by
  rw [reduceBy] at reduced
  split at reduced
  · cases reduced
  · next large =>
    rw [Bool.or_eq_true, not_or, decide_eq_true_eq, Bool.not_eq_true', Bool.not_eq_false, isPowerOfTwo_iff] at large
    obtain ⟨atLeast, power, inside, rfl⟩ := large
    refine ⟨power, ?_, inside, rfl, ?_⟩
    · apply Nat.pos_of_ne_zero
      rintro rfl
      exact atLeast (by decide)
    · rw [trailingZeros_twoPow inside] at reduced
      cases isDiv with
      | true => exact (Option.some.inj reduced).symm
      | false => exact (Option.some.inj reduced).symm

theorem twoPow_eq_ofNat (power : Nat) : BitVec.twoPow 64 power = BitVec.ofNat 64 (2 ^ power) := by
  apply BitVec.eq_of_toNat_eq
  rw [BitVec.toNat_twoPow, BitVec.toNat_ofNat]

/-- A division that is replaced: by what, and what makes that possible. -/
structure Reducible (cfg : Cfg) (value : CfgValue) (found : Reduction) (divisor : CfgValue) (power : Nat) : Prop where
  unsigned : isUnsigned (cfg.inst value).ty = true
  constant : (cfg.inst divisor).data = .const (BitVec.twoPow 64 power)
  positive : 0 < power
  inside : power < 64
  shape : (cfg.inst value).data = .binary .div found.numerator divisor ∧ found.op = .shr ∧ found.amount = BitVec.ofNat 64 power ∨
    (cfg.inst value).data = .binary .mod found.numerator divisor ∧ found.op = .bitAnd ∧
      found.amount = BitVec.twoPow 64 power - 1

theorem constInt_eq {image : BitVec 64} : constInt cfg value = some image ↔ (cfg.inst value).data = .const image := by
  rw [constInt]
  cases (cfg.inst value).data with
  | const other => simp
  | _ => simp

theorem reduction_reducible {found : Reduction} (reduced : reduction cfg value = some found) :
    ∃ divisor power, Reducible cfg value found divisor power := by
  rw [reduction] at reduced
  split at reduced
  · next unsigned =>
    split at reduced
    · next numerator divisor shape =>
      obtain ⟨d, constant, reduced⟩ := Option.bind_eq_some_iff.mp reduced
      obtain ⟨power, positive, inside, rfl, rfl⟩ := reduceBy_eq reduced
      exact ⟨divisor, power, unsigned, constInt_eq.mp constant, positive, inside, .inl ⟨shape, rfl, rfl⟩⟩
    · next numerator divisor shape =>
      obtain ⟨d, constant, reduced⟩ := Option.bind_eq_some_iff.mp reduced
      obtain ⟨power, positive, inside, rfl, rfl⟩ := reduceBy_eq reduced
      exact ⟨divisor, power, unsigned, constInt_eq.mp constant, positive, inside, .inr ⟨shape, rfl, rfl⟩⟩
    · cases reduced
  · cases reduced

theorem unsigned_of_isUnsigned {ty : Ty} (unsigned : isUnsigned ty = true) :
    ∃ format, ty.integer = some format ∧ format.signed = false := by
  cases ty with
  | u8 | u16 | u32 | u64 => exact ⟨_, rfl, rfl⟩
  | _ => cases unsigned

theorem small_of_canonical {format : IntFormat} (unsigned : format.signed = false) (inside : power < 64)
    (canonical : format.canonical (BitVec.twoPow 64 power) = BitVec.twoPow 64 power) : power < format.bits := by
  by_contra large
  have number : (BitVec.twoPow 64 power).toNat = 2 ^ power := BitVec.toNat_twoPow_of_lt inside
  have zero : format.meaning (BitVec.twoPow 64 power) = 0 := by
    rw [IntFormat.meaning_unsigned unsigned, number, Nat.mod_eq_zero_of_dvd (Nat.pow_dvd_pow 2 (Nat.le_of_not_lt large))]
    rfl
  rw [IntFormat.canonical, zero] at canonical
  have same := congrArg BitVec.toNat canonical
  rw [number] at same
  exact (Nat.two_pow_pos power).ne same

section

variable {format : IntFormat} (unsigned : format.signed = false) (small : power < format.bits)

include unsigned small

theorem meaning_twoPow : format.meaning (BitVec.twoPow 64 power) = (2 ^ power : Nat) := by
  have narrow := format.narrow
  rw [IntFormat.meaning_unsigned unsigned, BitVec.toNat_twoPow_of_lt (Nat.lt_of_lt_of_le small narrow),
    Nat.mod_eq_of_lt (Nat.pow_lt_pow_right (by omega) small)]

/-- Dividing by a power of two is shifting, and cannot trap. -/
theorem div_eq_shr (a : BitVec 64) : (evalInteger .div format a (BitVec.twoPow 64 power) : Except TrapKind (Value Datum)) =
    evalInteger .shr format a (BitVec.ofNat 64 power) := by
  have nonzero : ((2 ^ power : Nat) : Int) ≠ 0 := by exact_mod_cast (Nat.two_pow_pos power).ne'
  simp only [evalInteger, meaning_twoPow unsigned small, if_neg nonzero, IntFormat.quotient_two_pow unsigned small, orTrap]

theorem mod_eq_bitAnd (a : BitVec 64) : (evalInteger .mod format a (BitVec.twoPow 64 power) : Except TrapKind (Value Datum)) =
    evalInteger .bitAnd format a (BitVec.twoPow 64 power - 1) := by
  have nonzero : ((2 ^ power : Nat) : Int) ≠ 0 := by exact_mod_cast (Nat.two_pow_pos power).ne'
  simp only [evalInteger, meaning_twoPow unsigned small, if_neg nonzero, IntFormat.remainder_two_pow unsigned small, orTrap]
  rw [twoPow_eq_ofNat]

end

/-- The constant for each division replaced so far. -/
abbrev Amounts := CfgValue → Option CfgValue

structure Rewritten (cfg after : Cfg) (amounts : Amounts) : Prop where
  entry : after.entry = cfg.entry
  blockCount : after.blockCount = cfg.blockCount
  writable : after.isParamWritable = cfg.isParamWritable
  boundary : after.isOwnershipBoundaryValue = cfg.isOwnershipBoundaryValue
  grows : cfg.valueCount ≤ after.valueCount
  kept : ∀ value < cfg.valueCount, amounts value = none → after.inst value = cfg.inst value
  replaced : ∀ value amount, amounts value = some amount → ∃ found, reduction cfg value = some found ∧ value < cfg.valueCount ∧
    cfg.valueCount ≤ amount ∧ amount < after.valueCount ∧ after.inst amount = ⟨.const found.amount, (cfg.inst value).ty⟩ ∧
    after.inst value = ⟨.binary found.op found.numerator amount, (cfg.inst value).ty⟩
  apart : ∀ one other amount, amounts one = some amount → amounts other = some amount → one = other
  made : ∀ amount, cfg.valueCount ≤ amount → amount < after.valueCount → ∃ image ty, after.inst amount = ⟨.const image, ty⟩

namespace Rewritten

variable {after : Cfg} {amounts : Amounts} (rewritten : Rewritten cfg after amounts)

include rewritten

theorem ty (inside : value < cfg.valueCount) : (after.inst value).ty = (cfg.inst value).ty := by
  cases shape : amounts value with
  | none => rw [rewritten.kept value inside shape]
  | some amount =>
    obtain ⟨found, _, _, _, _, _, same⟩ := rewritten.replaced value amount shape
    rw [same]

theorem constInt (inside : value < cfg.valueCount) : Peephole.constInt after value = Peephole.constInt cfg value := by
  cases shape : amounts value with
  | none => rw [Peephole.constInt, Peephole.constInt, rewritten.kept value inside shape]
  | some amount =>
    obtain ⟨found, reduced, _, _, _, _, same⟩ := rewritten.replaced value amount shape
    obtain ⟨divisor, power, reducible⟩ := reduction_reducible reduced
    rw [Peephole.constInt, Peephole.constInt, same]
    rcases reducible.shape with ⟨data, _⟩ | ⟨data, _⟩
    · rw [data]
    · rw [data]

theorem reduction (closed : cfg.Closed) (inside : value < cfg.valueCount) (untouched : amounts value = none) :
    Peephole.reduction after value = Peephole.reduction cfg value := by
  have operands := closed value inside
  simp only [Peephole.reduction, rewritten.kept value inside untouched]
  split
  · split
    next numerator divisor shape =>
      rw [rewritten.constInt (operands divisor (by rw [shape]; exact .tail _ (.head _)))]
    next numerator divisor shape =>
      rw [rewritten.constInt (operands divisor (by rw [shape]; exact .tail _ (.head _)))]
    next => rfl
  · rfl

end Rewritten

theorem rewritten_refl (cfg : Cfg) : Rewritten cfg cfg fun _ => none :=
  ⟨rfl, rfl, rfl, rfl, Nat.le_refl _, fun _ _ _ => rfl, nofun, nofun, fun _ low high => absurd high (Nat.not_lt_of_le low)⟩

/-- A division comes with its constant in front. -/
def expand (amounts : Amounts) (value : CfgValue) : List CfgValue := (amounts value).toList ++ [value]

theorem Rewritten.one (closed : cfg.Closed) {state : Cfg × Insertions} {amounts : Amounts}
    (rewritten : Rewritten cfg state.1 amounts) (inside : value < cfg.valueCount) (untouched : amounts value = none)
    (index : Nat) : ∃ amounts', Rewritten cfg (reduceValue state (value, index)).1 amounts' ∧
      (reduceValue state (value, index)).1.block = state.1.block ∧ (∀ other, other ≠ value → amounts' other = amounts other) ∧
      (reduceValue state (value, index)).2 = state.2 ++ (amounts' value).toList.map fun amount => (index, amount) := by
  obtain ⟨after, insertions⟩ := state
  have same := rewritten.reduction closed inside untouched
  simp only [reduceValue, same]
  cases reduced : Peephole.reduction cfg value with
  | none =>
    refine ⟨amounts, rewritten, rfl, fun _ _ => rfl, ?_⟩
    rw [untouched]
    exact (List.append_nil _).symm
  | some found =>
    have grows := rewritten.grows
    have old : value ≠ after.valueCount := Nat.ne_of_lt (Nat.lt_of_lt_of_le inside grows)
    have fresh : ∀ other amount, amounts other = some amount → amount ≠ after.valueCount := by
      intro other amount taken
      obtain ⟨_, _, _, _, below, _⟩ := rewritten.replaced other amount taken
      exact Nat.ne_of_lt below
    refine ⟨Function.update amounts value (some after.valueCount), ⟨rewritten.entry, rewritten.blockCount, rewritten.writable,
      rewritten.boundary, ?_, ?_, ?_, ?_, ?_⟩, rfl, ?_, ?_⟩
    · exact Nat.le_succ_of_le grows
    · intro other otherInside none'
      have different : other ≠ value := by
        rintro rfl
        rw [Function.update_self] at none'
        cases none'
      rw [Function.update_of_ne different] at none'
      simp only [addInst, setInstData]
      rw [Function.update_of_ne different, Function.update_of_ne (Nat.ne_of_lt (Nat.lt_of_lt_of_le otherInside grows))]
      exact rewritten.kept other otherInside none'
    · intro other amount taken
      by_cases here : other = value
      · subst here
        rw [Function.update_self] at taken
        cases taken
        refine ⟨found, reduced, inside, grows, Nat.lt_succ_self _, ?_, ?_⟩
        · simp only [addInst, setInstData]
          rw [Function.update_of_ne (Ne.symm old), Function.update_self, rewritten.ty inside]
        · simp only [addInst, setInstData]
          rw [Function.update_self, Function.update_of_ne old, rewritten.ty inside]
      · rw [Function.update_of_ne here] at taken
        obtain ⟨earlier, first, low, above, below, amountInst, otherInst⟩ := rewritten.replaced other amount taken
        refine ⟨earlier, first, low, above, Nat.lt_succ_of_lt below, ?_, ?_⟩
        · simp only [addInst, setInstData]
          rw [Function.update_of_ne, Function.update_of_ne (fresh other amount taken)]
          · exact amountInst
          · exact Nat.ne_of_gt (Nat.lt_of_lt_of_le inside above)
        · simp only [addInst, setInstData]
          rw [Function.update_of_ne here, Function.update_of_ne (Nat.ne_of_lt (Nat.lt_of_lt_of_le low grows))]
          exact otherInst
    · intro one other amount oneTaken otherTaken
      by_cases oneHere : one = value
      · by_cases otherHere : other = value
        · rw [oneHere, otherHere]
        · rw [oneHere, Function.update_self] at oneTaken
          rw [Function.update_of_ne otherHere] at otherTaken
          cases oneTaken
          exact absurd rfl (fresh other _ otherTaken)
      · rw [Function.update_of_ne oneHere] at oneTaken
        by_cases otherHere : other = value
        · rw [otherHere, Function.update_self] at otherTaken
          cases otherTaken
          exact absurd rfl (fresh one _ oneTaken)
        · rw [Function.update_of_ne otherHere] at otherTaken
          exact rewritten.apart one other amount oneTaken otherTaken
    · intro amount low high
      simp only [addInst, setInstData] at high ⊢
      rw [Function.update_of_ne (Nat.ne_of_gt (Nat.lt_of_lt_of_le inside low))]
      rcases Nat.lt_or_eq_of_le (Nat.le_of_lt_succ high) with earlier | rfl
      · rw [Function.update_of_ne (Nat.ne_of_lt earlier)]
        exact rewritten.made amount low earlier
      · exact ⟨_, _, Function.update_self ..⟩
    · intro other different
      exact Function.update_of_ne different _ _
    · rw [Function.update_self]
      rfl

theorem flatMap_expand_congr {amounts amounts' : Amounts} {insts : List CfgValue}
    (same : ∀ value ∈ insts, amounts' value = amounts value) : insts.flatMap (expand amounts') = insts.flatMap (expand amounts) := by
  apply List.flatMap_congr
  intro value member
  rw [expand, expand, same value member]

theorem insertIdx_between (before rest : List CfgValue) (value : CfgValue) :
    (before ++ rest).insertIdx before.length value = before ++ value :: rest := by
  induction before with
  | nil => rfl
  | cons first before ih => exact congrArg (first :: ·) ih

/-- The instructions of a block, one after the other. -/
theorem Rewritten.insts (closed : cfg.Closed) (insts : List CfgValue) {start : Cfg} {amounts : Amounts}
    (rewritten : Rewritten cfg start amounts) (inside : ∀ value ∈ insts, value < cfg.valueCount) (distinct : insts.Nodup)
    (untouched : ∀ value ∈ insts, amounts value = none) :
    ∃ amounts', Rewritten cfg (insts.zipIdx.foldl reduceValue (start, [])).1 amounts' ∧
      (insts.zipIdx.foldl reduceValue (start, [])).1.block = start.block ∧
      (∀ other, other ∉ insts → amounts' other = amounts other) ∧
      ∀ rest, insertAll (insts.zipIdx.foldl reduceValue (start, [])).2 (insts ++ rest) = insts.flatMap (expand amounts') ++ rest := by
  induction insts using List.reverseRecOn with
  | nil => exact ⟨amounts, rewritten, rfl, fun _ _ => rfl, fun _ => rfl⟩
  | append_singleton insts value ih =>
    rw [List.nodup_append] at distinct
    obtain ⟨distinct, _, apart⟩ := distinct
    have fresh : value ∉ insts := fun member => apart value member value (List.mem_singleton_self _) rfl
    obtain ⟨before, kept, blocks, others, inserted⟩ := ih (fun other member => inside other (List.mem_append_left _ member)) distinct
      fun other member => untouched other (List.mem_append_left _ member)
    have here := List.mem_append_right insts (List.mem_singleton_self value)
    obtain ⟨after, kept', blocks', others', found⟩ := kept.one closed (inside value here)
      ((others value fresh).trans (untouched value here)) insts.length
    rw [List.zipIdx_append, List.foldl_append]
    simp only [List.zipIdx_singleton, List.foldl_cons, List.foldl_nil, Nat.zero_add]
    refine ⟨after, kept', blocks'.trans blocks, ?_, ?_⟩
    · intro other absent
      rw [List.mem_append, not_or, List.mem_singleton] at absent
      rw [others' other absent.2, others other absent.1]
    · intro rest
      have earlier : insts.flatMap (expand after) = insts.flatMap (expand before) :=
        flatMap_expand_congr fun other member => others' other fun same => fresh (same ▸ member)
      rw [found, insertAll, List.foldr_append, ← insertAll, List.flatMap_append, earlier, List.append_assoc, List.append_assoc,
        ← inserted]
      congr 1
      simp only [List.flatMap_cons, List.flatMap_nil, List.append_nil, expand]
      cases after value with
      | none => rfl
      | some amount =>
        simp only [Option.toList, List.map_cons, List.map_nil, List.foldr_cons, List.foldr_nil]
        exact insertIdx_between insts (value :: rest) amount

structure Reduced (cfg after : Cfg) (amounts : Amounts) : Prop extends Rewritten cfg after amounts where
  blocks : ∀ block < cfg.blockCount, after.block block =
    { cfg.block block with insts := (cfg.block block).insts.flatMap (expand amounts) }
  terminators : ∀ block, (after.block block).terminator = (cfg.block block).terminator

theorem reduced_refl (cfg : Cfg) : Reduced cfg cfg fun _ => none := by
  refine ⟨rewritten_refl cfg, fun block _ => ?_, fun _ => rfl⟩
  have same : expand (fun _ => none) = fun value => [value] := rfl
  rw [same, List.flatMap_singleton']

theorem Reduced.step (verified : cfg.Verified) (closed : cfg.Closed) {state : Cfg × Nat} {amounts : Amounts}
    (reduced : Reduced cfg state.1 amounts) {block : BlockId} (inside : block < cfg.blockCount)
    (untouched : ∀ value ∈ (cfg.block block).insts, amounts value = none) :
    ∃ amounts', Reduced cfg (reduceBlock state block).1 amounts' ∧
      ∀ other, other ∉ (cfg.block block).insts → amounts' other = amounts other := by
  obtain ⟨start, count⟩ := state
  have raw : (start.block block).insts = (cfg.block block).insts := by
    rw [reduced.blocks block inside, @flatMap_expand_congr (fun _ => none) amounts _ untouched]
    exact List.flatMap_singleton' _
  have arena : ∀ value ∈ (cfg.block block).insts, value < cfg.valueCount := fun value member =>
    verified.inArena value (mem_definitions.mpr ⟨block, inside, mem_defines.mpr (.inr member)⟩)
  obtain ⟨amounts', kept, blocks, others, inserted⟩ := reduced.toRewritten.insts closed (cfg.block block).insts arena
    (verified.nodup_insts inside) untouched
  have result := inserted []
  rw [List.append_nil, List.append_nil] at result
  refine ⟨amounts', ⟨?_, ?_, ?_⟩, others⟩
  · simp only [reduceBlock, raw]
    exact ⟨kept.entry, kept.blockCount, kept.writable, kept.boundary, kept.grows, kept.kept, kept.replaced, kept.apart, kept.made⟩
  · intro other otherInside
    simp only [reduceBlock, raw, setInsts]
    by_cases here : other = block
    · subst here
      rw [Function.update_self, blocks, raw, result, reduced.blocks other otherInside]
    · rw [Function.update_of_ne here, blocks, reduced.blocks other otherInside]
      have same : (cfg.block other).insts.flatMap (expand amounts') = (cfg.block other).insts.flatMap (expand amounts) := by
        apply flatMap_expand_congr
        intro value member
        apply others
        intro again
        exact here (verified.defines_unique otherInside inside (mem_defines.mpr (.inr member)) (mem_defines.mpr (.inr again)))
      rw [same]
  · intro other
    rw [← reduced.terminators]
    simp only [reduceBlock, raw, setInsts]
    by_cases here : other = block
    · rw [here, Function.update_self, blocks]
    · rw [Function.update_of_ne here, blocks]

theorem reduceUnsignedDivMod_reduced (verified : cfg.Verified) (closed : cfg.Closed) :
    ∃ amounts, Reduced cfg (reduceUnsignedDivMod cfg).1 amounts := by
  have swept : ∀ count ≤ cfg.blockCount, ∃ amounts, Reduced cfg ((List.range count).foldl reduceBlock (cfg, 0)).1 amounts ∧
      ∀ block, count ≤ block → block < cfg.blockCount → ∀ value ∈ (cfg.block block).insts, amounts value = none := by
    intro count
    induction count with
    | zero => exact fun _ => ⟨_, reduced_refl cfg, fun _ _ _ _ _ => rfl⟩
    | succ count ih =>
      intro bound
      obtain ⟨amounts, reduced, untouched⟩ := ih (Nat.le_of_succ_le bound)
      obtain ⟨amounts', reduced', others⟩ := reduced.step verified closed bound (untouched count (Nat.le_refl _) bound)
      rw [List.range_succ, List.foldl_append]
      refine ⟨amounts', reduced', ?_⟩
      intro block later inside value member
      rw [others value]
      · exact untouched block (Nat.le_of_succ_le later) inside value member
      · intro again
        have same := verified.defines_unique inside bound (mem_defines.mpr (.inr member)) (mem_defines.mpr (.inr again))
        exact Nat.ne_of_gt later same
  obtain ⟨amounts, reduced, _⟩ := swept cfg.blockCount (Nat.le_refl _)
  exact ⟨amounts, reduced⟩

end Rue.Peephole
