import Mathlib
import Rue.Proofs.LinearScanSafety

/-! The result of the production entry point: both passes start from the same
agenda, so whichever is returned satisfies the scan invariant at its end. -/

namespace Rue.Proofs.Allocation
open Rue.Codegen LinearScanStep LinearScanSafety SpillSlots

variable {Reg : Type} [DecidableEq Reg]

instance : Std.Total StartsNoLater := ⟨fun first second => Nat.le_total first.2.start second.2.start⟩

instance : IsTrans (VReg × LiveRange) StartsNoLater := ⟨fun _ _ _ => Nat.le_trans⟩

omit [DecidableEq Reg] in
theorem mem_liveVregs {vregCount : Nat} {liveness : LivenessInfo Reg} {entry : VReg × LiveRange} :
    entry ∈ liveVregs vregCount liveness ↔ entry.1 < vregCount ∧ liveness.range entry.1 = some entry.2 := by
  obtain ⟨vreg, range⟩ := entry
  simp only [liveVregs, List.mem_filterMap, List.mem_range, Option.map_eq_some_iff, Prod.mk.injEq]
  constructor
  · rintro ⟨found, inside, span, ranged, rfl, rfl⟩
    exact ⟨inside, ranged⟩
  · rintro ⟨inside, ranged⟩
    exact ⟨vreg, inside, range, ranged, rfl, rfl⟩

omit [DecidableEq Reg] in
private theorem liveVregs_nodup (vregCount : Nat) (liveness : LivenessInfo Reg) :
    ((liveVregs vregCount liveness).map Prod.fst).Nodup := by
  simp only [List.Nodup, List.pairwise_map, liveVregs, List.pairwise_filterMap]
  refine List.nodup_range.imp ?_
  intro first second different found firstFound other otherFound same
  obtain ⟨_, _, rfl⟩ := Option.map_eq_some_iff.mp firstFound
  obtain ⟨_, _, rfl⟩ := Option.map_eq_some_iff.mp otherFound
  exact different same

/-- The shared inputs list every live register once, in start order. -/
theorem agenda (vregCount : Nat) (ctx : ScanContext Reg)
    (inputs : ctx.inputs = .new vregCount ctx.liveness ctx.file) :
    Agenda ctx vregCount ctx.inputs.vregsByStart := by
  have permuted := List.perm_insertionSort StartsNoLater (liveVregs vregCount ctx.liveness)
  rw [inputs]
  refine ⟨List.pairwise_insertionSort _ _, ?_, ?_⟩
  · exact (permuted.map Prod.fst).nodup_iff.mpr (liveVregs_nodup vregCount ctx.liveness)
  · intro entry member
    exact (mem_liveVregs.mp (permuted.mem_iff.mp member)).symm

theorem initial_invariant (vregCount existingLocals : Nat) (ctx : ScanContext Reg)
    (inputs : ctx.inputs = .new vregCount ctx.liveness ctx.file) :
    Invariant ctx vregCount existingLocals ctx.inputs.vregsByStart (.init vregCount existingLocals) := by
  refine initial ?_
  intro vreg range inside ranged
  have permuted := List.perm_insertionSort StartsNoLater (liveVregs vregCount ctx.liveness)
  rw [inputs]
  exact permuted.mem_iff.mpr (mem_liveVregs.mpr ⟨inside, ranged⟩)

def finalState (vregCount existingLocals : Nat) (ctx : ScanContext Reg) : ScanState Reg :=
  ctx.inputs.vregsByStart.foldl (scanInterval ctx) (.init vregCount existingLocals)

theorem finalState_invariant (vregCount existingLocals : Nat) (ctx : ScanContext Reg)
    (inputs : ctx.inputs = .new vregCount ctx.liveness ctx.file) :
    Invariant ctx vregCount existingLocals [] (finalState vregCount existingLocals ctx) :=
  run_preserves (initial_invariant vregCount existingLocals ctx inputs) (agenda vregCount ctx inputs)

section Passes
variable (vregCount : Nat) (liveness : LivenessInfo Reg) (file : RegisterFile Reg) (existingLocals : Nat)
  (collectDebug : Bool) (costModel : CostModel) (loopInfo : LoopInfo) (vregInfo : IndexMap VRegInfo)

/-- The context of a pass that may reuse the `sunk` registers. -/
def passContext (sunk : List Reg) : ScanContext Reg :=
  { liveness, file, costModel, loopInfo, vregInfo, inputs := .new vregCount liveness file, sunk }

/-- The pass whose result is returned: the baseline, or the one that reuses the
baseline's saved registers. -/
def returnedPass : ScanContext Reg :=
  let context := passContext vregCount liveness file costModel loopInfo vregInfo
  let baseline := scanIntervalsWithRemat vregCount existingLocals collectDebug (context [])
  let reuse := context baseline.usedCalleeSaved
  if reusePassCouldDiffer file baseline.usedCalleeSaved &&
      acceptReusePass baseline (scanIntervalsWithRemat vregCount existingLocals collectDebug reuse) then reuse
  else context []

theorem result_is_pass :
    linearScanImplWithRemat vregCount liveness file existingLocals collectDebug costModel loopInfo vregInfo =
      scanIntervalsWithRemat vregCount existingLocals collectDebug
        (returnedPass vregCount liveness file existingLocals collectDebug costModel loopInfo vregInfo) := by
  let context := passContext vregCount liveness file costModel loopInfo vregInfo
  let baseline := scanIntervalsWithRemat vregCount existingLocals collectDebug (context [])
  let reuse := scanIntervalsWithRemat vregCount existingLocals collectDebug (context baseline.usedCalleeSaved)
  change (if !reusePassCouldDiffer file baseline.usedCalleeSaved then baseline
      else if acceptReusePass baseline reuse then reuse else baseline) =
    scanIntervalsWithRemat vregCount existingLocals collectDebug
      (if reusePassCouldDiffer file baseline.usedCalleeSaved && acceptReusePass baseline reuse then
        context baseline.usedCalleeSaved else context [])
  cases reusePassCouldDiffer file baseline.usedCalleeSaved <;> cases acceptReusePass baseline reuse <;> rfl

theorem returnedPass_inputs :
    let ctx := returnedPass vregCount liveness file existingLocals collectDebug costModel loopInfo vregInfo
    ctx.liveness = liveness ∧ ctx.file = file ∧ ctx.inputs = .new vregCount liveness file := by
  intro ctx
  obtain ⟨sunk, same⟩ : ∃ sunk, ctx = passContext vregCount liveness file costModel loopInfo vregInfo sunk := by
    simp only [ctx, returnedPass]
    split <;> exact ⟨_, rfl⟩
  rw [same]
  exact ⟨rfl, rfl, rfl⟩

end Passes

/-- Every live register is placed, in its own class, and overlapping ranges of
one class have different registers. -/
structure RegistersSafe (vregCount : Nat) (liveness : LivenessInfo Reg) (file : RegisterFile Reg)
    (result : ScanResult Reg) : Prop where
  placed : ∀ vreg range, vreg < vregCount → liveness.range vreg = some range →
    ∃ decided, result.assigned vreg = some decided
  ownClass : ∀ vreg range reg, liveness.range vreg = some range → result.assigned vreg = some (.register reg) →
    reg ∈ (file.classes (liveness.classOf vreg)).regs
  disjoint : ∀ first second reg, first ≠ second → liveness.classOf first = liveness.classOf second →
    Conflict liveness first second → result.assigned first = some (.register reg) →
    result.assigned second ≠ some (.register reg)

/-- Overlapping ranges have different spill offsets. -/
def SlotsSafe (liveness : LivenessInfo Reg) (result : ScanResult Reg) : Prop :=
  ∀ first second offset, first ≠ second → Conflict liveness first second →
    result.assigned first = some (.spill offset) → result.assigned second ≠ some (.spill offset)

/-- The returned allocation is conflict free. Offsets past the frame budget
saturate, so distinct slots have distinct offsets for the results that the
driver's budget check accepts. -/
theorem linearScan_conflict_free (vregCount : Nat) (liveness : LivenessInfo Reg) (file : RegisterFile Reg)
    (existingLocals : Nat) (collectDebug : Bool) (costModel : CostModel) (loopInfo : LoopInfo)
    (vregInfo : IndexMap VRegInfo) :
    let result := linearScanImplWithRemat vregCount liveness file existingLocals collectDebug costModel loopInfo vregInfo
    RegistersSafe vregCount liveness file result ∧
      ((checkedFunctionFrameSlots existingLocals result.numSpills).isSome = true → SlotsSafe liveness result) := by
  intro result
  let ctx := returnedPass vregCount liveness file existingLocals collectDebug costModel loopInfo vregInfo
  have same : result = scanIntervalsWithRemat vregCount existingLocals collectDebug ctx := result_is_pass ..
  obtain ⟨sameLiveness, sameFile, sameInputs⟩ : ctx.liveness = liveness ∧ ctx.file = file ∧
      ctx.inputs = .new vregCount liveness file := returnedPass_inputs ..
  have kept := finalState_invariant vregCount existingLocals ctx (by rw [sameInputs, sameLiveness, sameFile])
  have assigned : result.assigned = (finalState vregCount existingLocals ctx).assigned :=
    congrArg ScanResult.assigned same
  have spills : result.numSpills = (finalState vregCount existingLocals ctx).spillAllocator.slots.length :=
    congrArg ScanResult.numSpills same
  rw [← sameLiveness, ← sameFile]
  rw [spills]
  refine ⟨⟨?_, ?_, ?_⟩, ?_⟩
  · intro vreg range inside ranged
    rw [assigned]
    rcases kept.decided vreg range inside ranged with impossible | done
    · cases impossible
    · exact Option.isSome_iff_exists.mp done
  · intro vreg range reg ranged held
    rw [assigned] at held
    exact (kept.homes vreg reg range held ranged).1
  · intro first second reg different sameKind rivals held taken
    rw [assigned] at held taken
    exact kept.packed first second _ different rivals (registerPlace_eq_some.mpr ⟨held, rfl⟩)
      (registerPlace_eq_some.mpr ⟨taken, sameKind.symm⟩)
  · intro budget first second offset different rivals held taken
    rw [assigned] at held taken
    obtain ⟨slotOf, recorded, offsets⟩ := kept.spilled
    obtain ⟨firstSlot, firstRecorded, firstOffset⟩ := offsets first offset held
    obtain ⟨secondSlot, secondRecorded, secondOffset⟩ := offsets second offset taken
    obtain ⟨_, _, _, firstStored, _⟩ := recorded.bounded first firstSlot firstRecorded
    obtain ⟨_, _, _, secondStored, _⟩ := recorded.bounded second secondSlot secondRecorded
    have sameSlot := offsetForSlot_injective budget (List.getElem?_eq_some_iff.mp firstStored).1
      (List.getElem?_eq_some_iff.mp secondStored).1 (firstOffset.symm.trans secondOffset)
    exact recorded.packed first second firstSlot different rivals firstRecorded (sameSlot ▸ secondRecorded)

theorem crowded_range : 0 ≤ 1 := by decide

/-- Two values that are live together, with no register to put them in. -/
def crowdedLiveness : LivenessInfo Nat :=
  { ranges := [some ⟨0, 1, crowded_range⟩, some ⟨0, 1, crowded_range⟩]
    clobbersAt := [[], []]
    nonReturningAt := [false, false]
    divergingAt := [false, false]
    divergingUses := [false, false]
    vregClasses := [.gp, .gp] }

/-- Past the frame budget both values get the saturated offset. -/
theorem saturated_offsets_collide : ¬ SlotsSafe crowdedLiveness
    (linearScanImplWithRemat 2 crowdedLiveness (.gpOnly .empty) (2 ^ 28) false .default (.noLoops 2) []) := by
  intro safe
  refine safe 0 1 i32Min (by decide) ⟨⟨0, 1, by decide⟩, ⟨0, 1, by decide⟩, rfl, rfl, rfl⟩ ?_ ?_
  · decide
  · decide

/-- With no locals the budget admits both slots, and they differ. -/
theorem crowded_conflict_free :
    (checkedFunctionFrameSlots 0
      (linearScanImplWithRemat 2 crowdedLiveness (.gpOnly .empty) 0 false .default (.noLoops 2) []).numSpills).isSome = true ∧
    SlotsSafe crowdedLiveness
      (linearScanImplWithRemat 2 crowdedLiveness (.gpOnly .empty) 0 false .default (.noLoops 2) []) :=
  ⟨by decide,
    (linearScan_conflict_free 2 crowdedLiveness (.gpOnly .empty) 0 false .default (.noLoops 2) []).2 (by decide)⟩

end Rue.Proofs.Allocation

/-! The save set records the callee-saved registers handed out by a free pick.
A register taken by eviction is not recorded, which is harmless only when the
evicted holder was itself recorded, or when a later iteration makes it good. -/

namespace Rue.Proofs.SaveSet
open Rue.Codegen LinearScanStep LinearScanSafety Allocation

variable {Reg : Type} [DecidableEq Reg]

/-- Occupying the register with this interval obliges the prologue to save it. -/
def NeedsSave (ctx : ScanContext Reg) (vreg : VReg) (reg : Reg) : Prop :=
  ∃ range, ctx.liveness.range vreg = some range ∧ reg ∈ (ctx.save vreg).calleeSaved ∧
    ctx.confinedToDivergence range = false

def Saves (ctx : ScanContext Reg) (state : ScanState Reg) (interval : VReg × LiveRange) (reg : Reg) : Prop :=
  freePick ctx state interval = some reg ∧ NeedsSave ctx interval.1 reg

variable {ctx : ScanContext Reg} {vregCount existingLocals : Nat} {rest : List (VReg × LiveRange)}
  {state : ScanState Reg}

/-- What one iteration decides and saves: the arriving interval gets a free
register, a holder's register, or neither. -/
theorem decisions_cases {interval : VReg × LiveRange}
    (kept : Invariant ctx vregCount existingLocals (interval :: rest) state)
    (agenda : Agenda ctx vregCount (interval :: rest)) :
    (∃ picked, freePick ctx state interval = some picked ∧ evictedHolder ctx state interval = none ∧
      (scanInterval ctx state interval).assigned = Function.update state.assigned interval.1 (some (.register picked)) ∧
      ∀ reg, reg ∈ (scanInterval ctx state interval).usedCalleeSaved ↔
        reg ∈ state.usedCalleeSaved ∨ Saves ctx state interval reg) ∨
    (∃ index held decided, freePick ctx state interval = none ∧
      evictedHolder ctx state interval = some (index, held) ∧ held.vreg ≠ interval.1 ∧
      (∀ reg, decided ≠ Allocation.register reg) ∧
      (scanInterval ctx state interval).assigned =
        Function.update (Function.update state.assigned held.vreg (some decided)) interval.1
          (some (.register held.reg)) ∧
      (scanInterval ctx state interval).usedCalleeSaved = state.usedCalleeSaved) ∨
    (∃ decided, freePick ctx state interval = none ∧ evictedHolder ctx state interval = none ∧
      (∀ reg, decided ≠ Allocation.register reg) ∧
      (scanInterval ctx state interval).assigned = Function.update state.assigned interval.1 (some decided) ∧
      (scanInterval ctx state interval).usedCalleeSaved = state.usedCalleeSaved) := by
  obtain ⟨vreg, range⟩ := interval
  let kind := ctx.liveness.classOf vreg
  obtain ⟨ranged, inside⟩ := agenda.ranged _ List.mem_cons_self
  have unassigned : state.assigned vreg = none := kept.fresh _ List.mem_cons_self
  have inside : vreg < state.allocation.length := kept.size ▸ inside
  rcases scanInterval_cases ctx state vreg range with
    ⟨picked, free, noHolder, _, _, _, result⟩ | ⟨index, held, noFree, holder, found, _, result⟩ |
    ⟨noFree, noHolder, result⟩
  · refine Or.inl ⟨picked, free, noHolder, ?_, ?_⟩
    · have occupied := occupy_assigned (state.expire kind range.start) kind vreg picked range inside
      rw [result]
      split
      · rw [saveRegister_assigned]
        exact occupied
      · exact occupied
    · intro reg
      rw [result]
      simp only [Saves, free, NeedsSave, ranged, Option.some.injEq, exists_eq_left']
      split
      next obliged =>
        simp only [Bool.and_eq_true, SaveClasses.isCalleeSaved_iff, Bool.not_eq_true'] at obliged
        simp only [mem_saveRegister, occupy_usedCalleeSaved, expire_usedCalleeSaved]
        exact or_congr Iff.rfl ⟨fun same => ⟨same.symm, same ▸ obliged⟩, fun pick => pick.1.symm⟩
      next exempt =>
        simp only [occupy_usedCalleeSaved, expire_usedCalleeSaved]
        refine ⟨Or.inl, fun either => either.elim id ?_⟩
        rintro ⟨rfl, callee, returning⟩
        simp [callee, returning] at exempt
  · obtain ⟨_, holding, _⟩ := (kept.expire agenda kind).holders _ held (List.mem_of_getElem? found)
    have holding : state.assigned held.vreg = some (.register held.reg) := holding
    have different : held.vreg ≠ vreg := by
      intro same
      rw [same, unassigned] at holding
      cases holding
    let released := (state.expire kind range.start).release kind index
    let start := ((ctx.liveness.range held.vreg).map LiveRange.start).getD 0
    refine Or.inr (Or.inl ⟨index, held, evictedAs ctx released held.vreg start held.end, noFree, holder, different,
      evictedAs_ne_register _ _ _ _ _, ?_, ?_⟩)
    · have evicted := evict_assigned ctx released held.vreg start held.end (assigned_lt holding)
      rw [result, occupy_assigned _ _ _ _ _ (by simpa using inside)]
      exact congrArg (Function.update · vreg _) evicted
    · rw [result]
      simp
  · refine Or.inr (Or.inr ⟨_, noFree, noHolder, evictedAs_ne_register ctx (state.expire kind range.start) vreg
      range.start range.end, ?_, ?_⟩)
    · rw [result]
      exact evict_assigned ctx (state.expire kind range.start) vreg range.start range.end inside
    · rw [result]
      simp

end Rue.Proofs.SaveSet
