import Rue.Codegen.LinearScan
import Rue.Lib.Packing

/-! Spill slots are shared only by ranges that do not overlap. Every reuse
starts after the slot's recorded end and moves that end forward, so the recorded
end bounds all of the slot's occupants and not just the last one. -/

namespace Rue.Proofs.SpillSlots
open Rue.Codegen Rue.Lib SpillSlotAllocator

/-- The slot exists and its recorded end is at or after `stop`. -/
def Bounds (slots : List (Option Nat)) (slot stop : Nat) : Prop :=
  ∃ last, slots[slot]? = some (some last) ∧ stop ≤ last

/-- What one allocation does: it takes a new slot, or one whose recorded end
lies before the range, and leaves every other slot alone. -/
theorem allocate_cases (slots : SpillSlotAllocator) (start stop : Nat) :
    ∃ slot, (slots.allocate start stop).2 = offsetForSlot slots.baseSlots slot ∧
      (slots.allocate start stop).1.baseSlots = slots.baseSlots ∧
      (slots.allocate start stop).1.slots[slot]? = some (some stop) ∧
      (∀ other, other ≠ slot → other < slots.slots.length →
        (slots.allocate start stop).1.slots[other]? = slots.slots[other]?) ∧
      (∀ last, slots.slots[slot]? = some (some last) → last < start) := by
  unfold allocate
  cases found : slots.reusable start with
  | some slot =>
    simp only [reusable] at found
    split at found
    · obtain ⟨inside, dead, _⟩ := List.findIdx?_eq_some_iff_getElem.mp found
      refine ⟨slot, rfl, rfl, by simp [inside], ?_, ?_⟩
      · intro other different _
        simp [Ne.symm different]
      · intro last occupied
        rw [List.getElem?_eq_getElem inside, Option.some.injEq] at occupied
        simpa [occupied] using dead
    · cases found
  | none =>
    refine ⟨slots.slots.length, rfl, rfl, by simp, ?_, ?_⟩
    · intro other _ inside
      simp [List.getElem?_append_left inside]
    · intro last occupied
      simp at occupied

section Packing
variable {conflict : VReg → VReg → Prop} {range : VReg → Option LiveRange}

/-- A record of which slot each spilled register was given. -/
structure Recorded (conflict : VReg → VReg → Prop) (range : VReg → Option LiveRange)
    (slots : List (Option Nat)) (slotOf : VReg → Option Nat) : Prop where
  packed : Packed conflict slotOf
  bounded : ∀ vreg slot, slotOf vreg = some slot → ∃ span, range vreg = some span ∧ Bounds slots slot span.end

theorem Recorded.empty (slots : List (Option Nat)) : Recorded conflict range slots (fun _ => none) :=
  ⟨.empty, fun _ _ impossible => by cases impossible⟩

/-- Spilling a register into the slot `allocate` picks keeps the record, because
every occupant of a reused slot ended before the new range starts. -/
theorem Recorded.allocate {slots : SpillSlotAllocator} {slotOf : VReg → Option Nat}
    (recorded : Recorded conflict range slots.slots slotOf)
    (conflicts : ∀ {first second}, conflict first second → ∃ span other,
      range first = some span ∧ range second = some other ∧ span.overlaps other = true)
    (symmetric : ∀ {first second}, conflict first second → conflict second first)
    (vreg : VReg) (span : LiveRange) (ranged : range vreg = some span) :
    ∃ slot, (slots.allocate span.start span.end).2 = offsetForSlot slots.baseSlots slot ∧
      Recorded conflict range (slots.allocate span.start span.end).1.slots
        (Function.update slotOf vreg (some slot)) := by
  obtain ⟨slot, offset, _, stored, frame, dead⟩ := allocate_cases slots span.start span.end
  refine ⟨slot, offset, recorded.packed.insert symmetric vreg slot ?_, ?_⟩
  · intro other _ rivals placed
    obtain ⟨mine, theirs, ranged', otherRanged, overlapping⟩ := conflicts rivals
    obtain ⟨found, otherRanged', last, occupied, ends⟩ := recorded.bounded other slot placed
    have first := dead last occupied
    rw [ranged, Option.some.injEq] at ranged'
    rw [otherRanged, Option.some.injEq] at otherRanged'
    subst ranged' otherRanged'
    have meet := LiveRange.overlaps_iff.mp overlapping
    omega
  · intro other found placed
    by_cases same : other = vreg
    · subst same
      simp only [Function.update_self, Option.some.injEq] at placed
      subst placed
      exact ⟨span, ranged, _, stored, Nat.le_refl _⟩
    · rw [Function.update_of_ne same] at placed
      obtain ⟨theirs, otherRanged, last, occupied, ends⟩ := recorded.bounded other found placed
      refine ⟨theirs, otherRanged, ?_⟩
      by_cases reused : found = slot
      · subst reused
        have first := dead last occupied
        have := span.ordered
        exact ⟨_, stored, by omega⟩
      · have inside : found < slots.slots.length := (List.getElem?_eq_some_iff.mp occupied).1
        exact ⟨last, (frame found reused inside).trans occupied, ends⟩

end Packing

private theorem offsetForSlot_eq {baseSlots slot : Nat} (fits : (baseSlots + slot + 1) * slotBytes ≤ i32Max) :
    offsetForSlot baseSlots slot = -((baseSlots + slot + 1) * slotBytes : Nat) := by
  have exact : min (min (min (baseSlots + slot) u64Max + 1) u64Max * slotBytes) u64Max =
      (baseSlots + slot + 1) * slotBytes := by
    simp only [slotBytes, i32Max, u64Max] at *
    omega
  simp only [offsetForSlot, exact, fits, ite_true]

/-- Within the frame budget every slot has an offset of its own. -/
theorem offsetForSlot_injective {baseSlots slots first second : Nat}
    (budget : (checkedFunctionFrameSlots baseSlots slots).isSome = true)
    (firstInside : first < slots) (secondInside : second < slots)
    (same : offsetForSlot baseSlots first = offsetForSlot baseSlots second) : first = second := by
  have fits := checkedFunctionFrameSlots_isSome.mp budget
  simp only [maxFunctionFrameSlots, maxFunctionFrameBytes, i32Max, slotBytes] at fits
  rw [offsetForSlot_eq (by simp only [slotBytes, i32Max]; omega),
    offsetForSlot_eq (by simp only [slotBytes, i32Max]; omega)] at same
  simp only [slotBytes] at same
  omega

end Rue.Proofs.SpillSlots

/-! What one iteration of the scan can do, and how each of its updates reads
back. Every later invariant is derived from `scanInterval_cases`. -/

namespace Rue.Codegen
variable {Reg : Type}

/-- The decision recorded for a register, if there is one. -/
def ScanState.assigned (state : ScanState Reg) (vreg : VReg) : Option (Allocation Reg) :=
  state.allocation[vreg]?.join

def ScanResult.assigned (result : ScanResult Reg) (vreg : VReg) : Option (Allocation Reg) :=
  result.allocation[vreg]?.join

end Rue.Codegen

namespace Rue.Proofs.LinearScanStep
open Rue.Codegen

variable {Reg : Type}

theorem assigned_set (allocation : IndexMap (Option (Allocation Reg))) (vreg other : VReg)
    (decided : Allocation Reg) (inside : vreg < allocation.length) :
    (allocation.set vreg (some decided))[other]?.join =
      Function.update (fun vreg => allocation[vreg]?.join) vreg (some decided) other := by
  by_cases same : other = vreg
  · subst same
    simp [inside]
  · simp [Function.update_of_ne same, List.getElem?_set_ne (Ne.symm same)]

section Fields
variable (ctx : ScanContext Reg) (state : ScanState Reg) (kind : RegClass) (vreg : VReg) (reg : Reg)
  (range : LiveRange)

@[simp] theorem expire_allocation (start : Nat) : (state.expire kind start).allocation = state.allocation := rfl
@[simp] theorem expire_assigned (start : Nat) : (state.expire kind start).assigned = state.assigned := rfl
@[simp] theorem expire_spillAllocator (start : Nat) :
    (state.expire kind start).spillAllocator = state.spillAllocator := rfl
@[simp] theorem expire_usedCalleeSaved (start : Nat) :
    (state.expire kind start).usedCalleeSaved = state.usedCalleeSaved := rfl

@[simp] theorem release_allocation (index : Nat) : (state.release kind index).allocation = state.allocation := rfl
@[simp] theorem release_assigned (index : Nat) : (state.release kind index).assigned = state.assigned := rfl
@[simp] theorem release_usedCalleeSaved (index : Nat) :
    (state.release kind index).usedCalleeSaved = state.usedCalleeSaved := rfl

@[simp] theorem occupy_spillAllocator :
    (state.occupy kind vreg reg range).spillAllocator = state.spillAllocator := rfl
@[simp] theorem occupy_usedCalleeSaved :
    (state.occupy kind vreg reg range).usedCalleeSaved = state.usedCalleeSaved := rfl
@[simp] theorem occupy_length :
    (state.occupy kind vreg reg range).allocation.length = state.allocation.length := by
  simp [ScanState.occupy]

theorem occupy_assigned (inside : vreg < state.allocation.length) :
    (state.occupy kind vreg reg range).assigned =
      Function.update state.assigned vreg (some (.register reg)) :=
  funext fun other => assigned_set state.allocation vreg other _ inside

@[simp] theorem evict_active (start stop : Nat) : (ScanState.evict ctx state vreg start stop).active = state.active := by
  unfold ScanState.evict
  split <;> rfl

@[simp] theorem evict_usedCalleeSaved (start stop : Nat) :
    (ScanState.evict ctx state vreg start stop).usedCalleeSaved = state.usedCalleeSaved := by
  unfold ScanState.evict
  split <;> rfl

@[simp] theorem evict_length (start stop : Nat) :
    (ScanState.evict ctx state vreg start stop).allocation.length = state.allocation.length := by
  unfold ScanState.evict
  split <;> simp


variable [DecidableEq Reg]

@[simp] theorem saveRegister_allocation : (state.saveRegister reg).allocation = state.allocation := by
  unfold ScanState.saveRegister
  split <;> rfl

@[simp] theorem saveRegister_assigned : (state.saveRegister reg).assigned = state.assigned := by
  funext vreg
  simp only [ScanState.assigned, saveRegister_allocation]

@[simp] theorem saveRegister_active : (state.saveRegister reg).active = state.active := by
  unfold ScanState.saveRegister
  split <;> rfl

@[simp] theorem saveRegister_spillAllocator :
    (state.saveRegister reg).spillAllocator = state.spillAllocator := by
  unfold ScanState.saveRegister
  split <;> rfl

@[simp] theorem mem_saveRegister {other : Reg} :
    other ∈ (state.saveRegister reg).usedCalleeSaved ↔ other ∈ state.usedCalleeSaved ∨ other = reg := by
  unfold ScanState.saveRegister
  split
  next saved =>
    have member : reg ∈ state.usedCalleeSaved := by simpa using saved
    exact ⟨Or.inl, fun either => either.elim id (fun same => same ▸ member)⟩
  next => simp

end Fields

/-- What an evicted interval becomes. -/
def evictedAs (ctx : ScanContext Reg) (state : ScanState Reg) (vreg : VReg) (start stop : Nat) : Allocation Reg :=
  match ctx.canRemat vreg with
  | some op => .rematerialize op
  | none => .spill (state.spillAllocator.allocate start stop).2

theorem evictedAs_ne_register (ctx : ScanContext Reg) (state : ScanState Reg) (vreg : VReg) (start stop : Nat)
    (reg : Reg) : evictedAs ctx state vreg start stop ≠ .register reg := by
  unfold evictedAs
  split <;> simp

theorem evict_assigned (ctx : ScanContext Reg) (state : ScanState Reg) (vreg : VReg) (start stop : Nat)
    (inside : vreg < state.allocation.length) :
    (ScanState.evict ctx state vreg start stop).assigned =
      Function.update state.assigned vreg (some (evictedAs ctx state vreg start stop)) := by
  funext other
  cases remat : ctx.canRemat vreg <;>
    simp only [ScanState.evict, evictedAs, remat] <;>
    exact assigned_set state.allocation vreg other _ inside

variable [DecidableEq Reg]

/-- A free register is unused, belongs to the class and outlives the range. -/
theorem pickFreeRegister_spec {save : SaveClasses Reg} {clobbers : ClobberIndex Reg}
    {active : List (ActiveInterval Reg)} {sunk : List Reg} {range : LiveRange} {off : Bool} {reg : Reg}
    (picked : pickFreeRegister save clobbers active sunk range off = some reg) :
    (∀ held ∈ active, held.reg ≠ reg) ∧ reg ∈ save.regs ∧
      registerSurvivesRange save clobbers reg range off = true := by
  have unused : ∀ {candidate : Reg}, (!active.any fun held => decide (held.reg = candidate)) = true →
      ∀ held ∈ active, held.reg ≠ candidate := by
    intro candidate free held member same
    simp only [Bool.not_eq_true', List.any_eq_false, decide_eq_true_eq] at free
    exact free held member same
  simp only [pickFreeRegister, Option.or_eq_some_iff] at picked
  rcases picked with compact | ⟨_, caller | ⟨_, callee⟩⟩
  · have member := save.compact_subset reg (List.mem_of_find?_eq_some compact)
    have found := List.find?_some compact
    simp only [Bool.and_eq_true] at found
    exact ⟨unused found.2, List.mem_append_right _ member, by simp [registerSurvivesRange, member]⟩
  · have found := List.find?_some caller
    simp only [Bool.and_eq_true] at found
    exact ⟨unused found.1, List.mem_append_left _ (List.mem_of_find?_eq_some caller),
      by simp only [registerSurvivesRange, found.2, Bool.or_true]⟩
  · have member := List.mem_of_find?_eq_some callee
    have found := List.find?_some (p := fun reg => !active.any fun held => decide (held.reg = reg)) callee
    exact ⟨unused found, List.mem_append_right _ member, by simp [registerSurvivesRange, member]⟩

private theorem considered_survives (ctx : ScanContext Reg) (vreg : VReg) (range : LiveRange)
    (entries : List (ActiveInterval Reg × Nat)) (choice : EvictionChoice) (index : Nat)
    (chosen : (entries.foldl (ctx.considerEviction vreg range) choice).index = some index) :
    choice.index = some index ∨ ∃ held, (held, index) ∈ entries ∧ ctx.survives vreg range held.reg = true := by
  induction entries generalizing choice with
  | nil => exact Or.inl chosen
  | cons entry entries ih =>
    rcases ih _ chosen with earlier | ⟨held, member, survives⟩
    · obtain ⟨held, position⟩ := entry
      simp only [ScanContext.considerEviction] at earlier
      split at earlier
      · exact Or.inl earlier
      next survives =>
        have survives : ctx.survives vreg range held.reg = true := by simpa using survives
        rw [apply_ite EvictionChoice.index] at earlier
        split_ifs at earlier
        all_goals first
          | exact Or.inl earlier
          | cases earlier
            exact Or.inr ⟨held, List.mem_cons_self, survives⟩
    · exact Or.inr ⟨held, List.mem_cons_of_mem _ member, survives⟩

/-- The evicted holder is active and its register outlives the arriving range. -/
theorem victim_spec {ctx : ScanContext Reg} {vreg : VReg} {range : LiveRange}
    {active : List (ActiveInterval Reg)} {index : Nat} {held : ActiveInterval Reg}
    (chosen : ctx.victim vreg range active = some (index, held)) :
    active[index]? = some held ∧ ctx.survives vreg range held.reg = true := by
  simp only [ScanContext.victim, Option.bind_eq_some_iff, Option.map_eq_some_iff, Prod.mk.injEq] at chosen
  obtain ⟨position, best, entry, found, rfl, rfl⟩ := chosen
  refine ⟨found, ?_⟩
  rcases considered_survives ctx vreg range _ _ _ best with impossible | ⟨other, member, survives⟩
  · cases impossible
  · have same := List.mem_zipIdx_iff_getElem?.mp member
    rw [found, Option.some.injEq] at same
    exact same ▸ survives

/-- The free register an iteration finds. -/
def freePick (ctx : ScanContext Reg) (state : ScanState Reg) (interval : VReg × LiveRange) : Option Reg :=
  let kind := ctx.liveness.classOf interval.1
  pickFreeRegister (ctx.save interval.1) ctx.inputs.clobbers ((state.expire kind interval.2.start).active kind)
    ctx.sunk interval.2 (ctx.offDivergingPaths interval.1)

/-- The holder whose register an iteration takes, when no register is free. -/
def evictedHolder (ctx : ScanContext Reg) (state : ScanState Reg) (interval : VReg × LiveRange) :
    Option (Nat × ActiveInterval Reg) :=
  let kind := ctx.liveness.classOf interval.1
  match freePick ctx state interval with
  | some _ => none
  | none => ctx.victim interval.1 interval.2 ((state.expire kind interval.2.start).active kind)

/-- The three outcomes of an iteration: a free register, an evicted holder's
register, or no register at all. -/
theorem scanInterval_cases (ctx : ScanContext Reg) (state : ScanState Reg) (vreg : VReg) (range : LiveRange) :
    let kind := ctx.liveness.classOf vreg
    let expired := state.expire kind range.start
    (∃ reg, freePick ctx state (vreg, range) = some reg ∧ evictedHolder ctx state (vreg, range) = none ∧
      (∀ held ∈ expired.active kind, held.reg ≠ reg) ∧ reg ∈ (ctx.save vreg).regs ∧
      ctx.survives vreg range reg = true ∧
      scanInterval ctx state (vreg, range) =
        if (ctx.save vreg).isCalleeSaved reg && !ctx.confinedToDivergence range then
          (expired.occupy kind vreg reg range).saveRegister reg
        else expired.occupy kind vreg reg range) ∨
    (∃ index held, freePick ctx state (vreg, range) = none ∧
      evictedHolder ctx state (vreg, range) = some (index, held) ∧
      (expired.active kind)[index]? = some held ∧ ctx.survives vreg range held.reg = true ∧
      scanInterval ctx state (vreg, range) =
        (ScanState.evict ctx (expired.release kind index) held.vreg
          (((ctx.liveness.range held.vreg).map LiveRange.start).getD 0) held.end).occupy kind vreg held.reg range) ∨
    (freePick ctx state (vreg, range) = none ∧ evictedHolder ctx state (vreg, range) = none ∧
      scanInterval ctx state (vreg, range) = ScanState.evict ctx expired vreg range.start range.end) := by
  intro kind expired
  cases picked : freePick ctx state (vreg, range) with
  | some reg =>
    obtain ⟨unused, member, survives⟩ := pickFreeRegister_spec picked
    refine Or.inl ⟨reg, rfl, by simp only [evictedHolder, picked], unused, member, survives, ?_⟩
    simp only [freePick] at picked
    simp only [scanInterval, picked, kind, expired]
  | none =>
    have holder : evictedHolder ctx state (vreg, range) = ctx.victim vreg range (expired.active kind) := by
      simp only [evictedHolder, picked, kind, expired]
    simp only [freePick] at picked
    rw [holder]
    cases chosen : ctx.victim vreg range (expired.active kind) with
    | some entry =>
      obtain ⟨index, held⟩ := entry
      obtain ⟨found, survives⟩ := victim_spec chosen
      refine Or.inr (Or.inl ⟨index, held, rfl, rfl, found, survives, ?_⟩)
      simp only [kind, expired] at chosen
      simp only [scanInterval, picked, chosen, kind, expired]
    | none =>
      refine Or.inr (Or.inr ⟨rfl, rfl, ?_⟩)
      simp only [kind, expired] at chosen
      simp only [scanInterval, picked, chosen, kind, expired]

end Rue.Proofs.LinearScanStep
