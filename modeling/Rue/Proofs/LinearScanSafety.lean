import Rue.Proofs.LinearScanStep

/-! Overlapping ranges never share a register or a stack slot. The invariant is
carried through expiry, free picks, evictions and spills, then read off at the
end of either pass. -/

namespace Rue.Proofs.LinearScanSafety
open Rue.Codegen Rue.Lib LinearScanStep SpillSlots

variable {Reg : Type}

/-- Two registers conflict when their live ranges overlap. -/
def Conflict (liveness : LivenessInfo Reg) (first second : VReg) : Prop :=
  ∃ span other, liveness.range first = some span ∧ liveness.range second = some other ∧
    span.overlaps other = true

theorem Conflict.symm {liveness : LivenessInfo Reg} {first second : VReg}
    (rivals : Conflict liveness first second) : Conflict liveness second first := by
  obtain ⟨span, other, ranged, otherRanged, overlapping⟩ := rivals
  exact ⟨other, span, otherRanged, ranged, by rwa [LiveRange.overlaps_comm]⟩

/-- The physical register a virtual register occupies, within its class. -/
def registerPlace (liveness : LivenessInfo Reg) (assigned : VReg → Option (Allocation Reg)) (vreg : VReg) :
    Option (RegClass × Reg) :=
  match assigned vreg with
  | some (.register reg) => some (liveness.classOf vreg, reg)
  | _ => none

theorem registerPlace_eq_some {liveness : LivenessInfo Reg} {assigned : VReg → Option (Allocation Reg)}
    {vreg : VReg} {kind : RegClass} {reg : Reg} :
    registerPlace liveness assigned vreg = some (kind, reg) ↔
      assigned vreg = some (.register reg) ∧ liveness.classOf vreg = kind := by
  unfold registerPlace
  split
  next found held => simp only [held, Option.some.injEq, Prod.mk.injEq, Allocation.register.injEq, and_comm]
  next other =>
    constructor
    · intro impossible
      cases impossible
    · intro ⟨held, _⟩
      exact absurd held (other reg)

theorem registerPlace_register (liveness : LivenessInfo Reg) (assigned : VReg → Option (Allocation Reg))
    (vreg : VReg) (reg : Reg) :
    registerPlace liveness (Function.update assigned vreg (some (.register reg))) =
      Function.update (registerPlace liveness assigned) vreg (some (liveness.classOf vreg, reg)) := by
  funext other
  by_cases same : other = vreg
  · subst same
    simp [registerPlace]
  · simp [registerPlace, Function.update_of_ne same]

theorem registerPlace_other (liveness : LivenessInfo Reg) (assigned : VReg → Option (Allocation Reg))
    (vreg : VReg) {decided : Allocation Reg} (elsewhere : ∀ reg, decided ≠ .register reg) :
    registerPlace liveness (Function.update assigned vreg (some decided)) =
      Function.update (registerPlace liveness assigned) vreg none := by
  funext other
  by_cases same : other = vreg
  · subst same
    cases decided with
    | register reg => exact False.elim (elsewhere reg rfl)
    | spill _ | rematerialize _ => simp [registerPlace]
  · simp [registerPlace, Function.update_of_ne same]

theorem assigned_lt {state : ScanState Reg} {vreg : VReg} {decided : Allocation Reg}
    (assigned : state.assigned vreg = some decided) : vreg < state.allocation.length := by
  simp only [ScanState.assigned, Option.join_eq_some_iff] at assigned
  exact (List.getElem?_eq_some_iff.mp assigned).1

structure Agenda (ctx : ScanContext Reg) (vregCount : Nat) (rest : List (VReg × LiveRange)) : Prop where
  sorted : rest.Pairwise fun first second => first.2.start ≤ second.2.start
  distinct : (rest.map Prod.fst).Nodup
  ranged : ∀ entry ∈ rest, ctx.liveness.range entry.1 = some entry.2 ∧ entry.1 < vregCount

theorem Agenda.tail {ctx : ScanContext Reg} {vregCount : Nat} {entry : VReg × LiveRange}
    {rest : List (VReg × LiveRange)} (agenda : Agenda ctx vregCount (entry :: rest)) : Agenda ctx vregCount rest :=
  ⟨(List.pairwise_cons.mp agenda.sorted).2, (List.nodup_cons.mp agenda.distinct).2,
    fun other member => agenda.ranged other (List.mem_cons_of_mem _ member)⟩

variable [DecidableEq Reg]

/-- What holds between two iterations. A register's holder stays active until
its range is over, so a free register is free of every conflicting range. -/
structure Invariant (ctx : ScanContext Reg) (vregCount existingLocals : Nat) (rest : List (VReg × LiveRange))
    (state : ScanState Reg) : Prop where
  size : state.allocation.length = vregCount
  fresh : ∀ entry ∈ rest, state.assigned entry.1 = none
  decided : ∀ vreg range, vreg < vregCount → ctx.liveness.range vreg = some range →
    (vreg, range) ∈ rest ∨ (state.assigned vreg).isSome = true
  holders : ∀ kind, ∀ held ∈ state.active kind, ctx.liveness.classOf held.vreg = kind ∧
    state.assigned held.vreg = some (.register held.reg) ∧
    ∃ range, ctx.liveness.range held.vreg = some range ∧ range.end = held.end
  distinct : ∀ kind, ((state.active kind).map ActiveInterval.reg).Nodup
  tracked : ∀ vreg reg range, state.assigned vreg = some (.register reg) →
    ctx.liveness.range vreg = some range →
    ⟨vreg, reg, range.end⟩ ∈ state.active (ctx.liveness.classOf vreg) ∨ ∀ entry ∈ rest, range.end < entry.2.start
  homes : ∀ vreg reg range, state.assigned vreg = some (.register reg) →
    ctx.liveness.range vreg = some range → reg ∈ (ctx.save vreg).regs ∧ ctx.survives vreg range reg = true
  packed : Packed (Conflict ctx.liveness) (registerPlace ctx.liveness state.assigned)
  base : state.spillAllocator.baseSlots = existingLocals
  spilled : ∃ slotOf, Recorded (Conflict ctx.liveness) ctx.liveness.range state.spillAllocator.slots slotOf ∧
    ∀ vreg offset, state.assigned vreg = some (.spill offset) →
      ∃ slot, slotOf vreg = some slot ∧ offset = SpillSlotAllocator.offsetForSlot existingLocals slot

variable {ctx : ScanContext Reg} {vregCount existingLocals : Nat} {rest : List (VReg × LiveRange)}
  {state : ScanState Reg}

theorem init_assigned (Reg : Type) (vregCount existingLocals : Nat) (vreg : VReg) :
    (ScanState.init vregCount existingLocals : ScanState Reg).assigned vreg = none := by
  simp only [ScanState.assigned, ScanState.init, List.getElem?_replicate]
  split <;> rfl

theorem initial
    (complete : ∀ vreg range, vreg < vregCount → ctx.liveness.range vreg = some range → (vreg, range) ∈ rest) :
    Invariant ctx vregCount existingLocals rest (.init vregCount existingLocals) := by
  have unassigned := init_assigned Reg vregCount existingLocals
  constructor
  case size => simp [ScanState.init]
  case fresh => exact fun entry _ => unassigned entry.1
  case decided => exact fun vreg range inside ranged => Or.inl (complete vreg range inside ranged)
  case holders => exact fun _ held member => by cases member
  case distinct => exact fun _ => List.nodup_nil
  case tracked => exact fun vreg reg range held _ => by rw [unassigned] at held; cases held
  case homes => exact fun vreg reg range held _ => by rw [unassigned] at held; cases held
  case packed =>
    intro first second spot _ _ placed
    rw [registerPlace, unassigned] at placed
    cases placed
  case base => rfl
  case spilled => exact ⟨_, .empty _, fun vreg offset held => by rw [unassigned] at held; cases held⟩

/-- Expiry drops only intervals that end before everything still to come. -/
theorem Invariant.expire {entry : VReg × LiveRange} (kept : Invariant ctx vregCount existingLocals (entry :: rest) state)
    (agenda : Agenda ctx vregCount (entry :: rest)) (kind : RegClass) :
    Invariant ctx vregCount existingLocals (entry :: rest) (state.expire kind entry.2.start) := by
  have subset : ∀ other, ((state.expire kind entry.2.start).active other).Sublist (state.active other) := by
    intro other
    simp only [ScanState.expire]
    by_cases same : other = kind
    · subst same
      rw [Function.update_self]
      exact List.filter_sublist
    · rw [Function.update_of_ne same]
  refine ⟨kept.size, kept.fresh, kept.decided, ?_, ?_, ?_, kept.homes, kept.packed, kept.base, kept.spilled⟩
  · exact fun other held member => kept.holders other held ((subset other).mem member)
  · exact fun other => (kept.distinct other).sublist ((subset other).map _)
  · intro vreg reg range held ranged
    rcases kept.tracked vreg reg range held ranged with member | ended
    · by_cases dead : range.end < entry.2.start
      · refine Or.inr fun later inside => Nat.lt_of_lt_of_le dead ?_
        rcases List.mem_cons.mp inside with rfl | inside
        · exact Nat.le_refl _
        · exact (List.pairwise_cons.mp agenda.sorted).1 later inside
      · refine Or.inl ?_
        simp only [ScanState.expire]
        by_cases same : ctx.liveness.classOf vreg = kind
        · rw [same] at member ⊢
          rw [Function.update_self]
          exact List.mem_filter.mpr ⟨member, by simpa using dead⟩
        · rwa [Function.update_of_ne same]
    · exact Or.inr ended

/-- Putting the next interval in a register no active interval of its class
holds. Every conflicting holder is still active, so the register is clear. -/
theorem Invariant.occupy {vreg : VReg} {range : LiveRange} {reg : Reg}
    (kept : Invariant ctx vregCount existingLocals ((vreg, range) :: rest) state)
    (agenda : Agenda ctx vregCount ((vreg, range) :: rest))
    (unused : ∀ held ∈ state.active (ctx.liveness.classOf vreg), held.reg ≠ reg)
    (home : reg ∈ (ctx.save vreg).regs) (survives : ctx.survives vreg range reg = true) :
    Invariant ctx vregCount existingLocals rest (state.occupy (ctx.liveness.classOf vreg) vreg reg range) := by
  obtain ⟨ranged, inside⟩ := agenda.ranged _ List.mem_cons_self
  have absent : ∀ entry ∈ rest, entry.1 ≠ vreg := by
    intro entry member same
    exact (List.nodup_cons.mp agenda.distinct).1 (List.mem_map.mpr ⟨entry, member, same⟩)
  have assigned := occupy_assigned state (ctx.liveness.classOf vreg) vreg reg range (kept.size ▸ inside)
  have unassigned : state.assigned vreg = none := kept.fresh _ List.mem_cons_self
  have active : ∀ kind, (state.occupy (ctx.liveness.classOf vreg) vreg reg range).active kind =
      if kind = ctx.liveness.classOf vreg then state.active kind ++ [⟨vreg, reg, range.end⟩] else state.active kind := by
    intro kind
    simp only [ScanState.occupy, Function.update_apply]
    split
    next same => rw [same]
    next => rfl
  constructor
  case size => simpa using kept.size
  case fresh =>
    intro entry member
    rw [assigned, Function.update_of_ne (absent entry member)]
    exact kept.fresh entry (List.mem_cons_of_mem _ member)
  case decided =>
    intro other span otherInside otherRanged
    rw [assigned]
    by_cases same : other = vreg
    · subst same
      simp
    · rw [Function.update_of_ne same]
      rcases kept.decided other span otherInside otherRanged with member | done
      · rcases List.mem_cons.mp member with first | later
        · exact absurd (congrArg Prod.fst first) same
        · exact Or.inl later
      · exact Or.inr done
  case holders =>
    intro kind held member
    rw [active] at member
    have older : held ∈ state.active kind → ctx.liveness.classOf held.vreg = kind ∧
        (state.occupy (ctx.liveness.classOf vreg) vreg reg range).assigned held.vreg = some (.register held.reg) ∧
        ∃ span, ctx.liveness.range held.vreg = some span ∧ span.end = held.end := by
      intro member
      obtain ⟨sameKind, holding, spanned⟩ := kept.holders kind held member
      have different : held.vreg ≠ vreg := by
        intro same
        rw [same, unassigned] at holding
        cases holding
      exact ⟨sameKind, by rw [assigned, Function.update_of_ne different, holding], spanned⟩
    split at member
    next sameKind =>
      rcases List.mem_append.mp member with member | added
      · exact older member
      · rw [List.mem_singleton] at added
        subst added
        exact ⟨sameKind.symm, by rw [assigned, Function.update_self], range, ranged, rfl⟩
    next => exact older member
  case distinct =>
    intro kind
    rw [active]
    split
    next sameKind =>
      subst sameKind
      rw [List.map_append, List.map_singleton, List.nodup_append]
      refine ⟨kept.distinct _, List.nodup_singleton _, ?_⟩
      intro first member second added same
      obtain ⟨held, heldMember, rfl⟩ := List.mem_map.mp member
      exact unused held heldMember (same.trans (List.mem_singleton.mp added))
    next => exact kept.distinct kind
  case tracked =>
    intro other found span held otherRanged
    rw [assigned] at held
    by_cases same : other = vreg
    · subst same
      simp only [Function.update_self, Option.some.injEq, Allocation.register.injEq] at held
      rw [ranged, Option.some.injEq] at otherRanged
      subst held otherRanged
      exact Or.inl (by simp [active])
    · rw [Function.update_of_ne same] at held
      rcases kept.tracked other found span held otherRanged with member | ended
      · refine Or.inl ?_
        rw [active]
        split
        · exact List.mem_append_left _ member
        · exact member
      · exact Or.inr fun entry member => ended entry (List.mem_cons_of_mem _ member)
  case homes =>
    intro other found span held otherRanged
    rw [assigned] at held
    by_cases same : other = vreg
    · subst same
      simp only [Function.update_self, Option.some.injEq, Allocation.register.injEq] at held
      rw [ranged, Option.some.injEq] at otherRanged
      subst held otherRanged
      exact ⟨home, survives⟩
    · rw [Function.update_of_ne same] at held
      exact kept.homes other found span held otherRanged
  case packed =>
    rw [assigned, registerPlace_register]
    refine kept.packed.insert Conflict.symm vreg _ ?_
    intro other _ rivals placed
    obtain ⟨held, sameKind⟩ := registerPlace_eq_some.mp placed
    obtain ⟨mine, span, mineRanged, otherRanged, overlapping⟩ := rivals
    rw [ranged, Option.some.injEq] at mineRanged
    subst mineRanged
    have meet := LiveRange.overlaps_iff.mp overlapping
    rcases kept.tracked other reg span held otherRanged with member | ended
    · exact unused _ (sameKind ▸ member) rfl
    · have before : span.end < range.start := ended _ List.mem_cons_self
      exact absurd before (Nat.not_lt.mpr meet.1)
  case base => exact kept.base
  case spilled =>
    obtain ⟨slotOf, recorded, offsets⟩ := kept.spilled
    refine ⟨slotOf, recorded, ?_⟩
    intro other offset held
    rw [assigned] at held
    by_cases same : other = vreg
    · subst same
      simp at held
    · rw [Function.update_of_ne same] at held
      exact offsets other offset held

/-- Evicting an interval together with its register, if it is a displaced
holder; the arriving interval holds none. -/
theorem Invariant.evict {before after : List (VReg × LiveRange)} {vreg : VReg} {range : LiveRange}
    (active : RegClass → List (ActiveInterval Reg))
    (kept : Invariant ctx vregCount existingLocals before state)
    (subset : ∀ entry ∈ after, entry ∈ before ∧ entry.1 ≠ vreg)
    (covered : ∀ entry ∈ before, entry ∈ after ∨ entry.1 = vreg)
    (ranged : ctx.liveness.range vreg = some range) (inside : vreg < vregCount)
    (dropped : ∀ kind, (active kind).Sublist (state.active kind))
    (idle : ∀ kind, ∀ held ∈ active kind, held.vreg ≠ vreg)
    (remaining : ∀ kind, ∀ held ∈ state.active kind, held.vreg ≠ vreg → held ∈ active kind) :
    Invariant ctx vregCount existingLocals after
      (ScanState.evict ctx { state with active } vreg range.start range.end) := by
  have assigned : (ScanState.evict ctx { state with active } vreg range.start range.end).assigned =
      Function.update state.assigned vreg
        (some (evictedAs ctx { state with active } vreg range.start range.end)) :=
    evict_assigned ctx { state with active } vreg range.start range.end (kept.size ▸ inside)
  have elsewhere := evictedAs_ne_register ctx { state with active } vreg range.start range.end
  have older : ∀ other reg, (ScanState.evict ctx { state with active } vreg range.start range.end).assigned other = some (.register reg) →
      other ≠ vreg ∧ state.assigned other = some (.register reg) := by
    intro other reg held
    rw [assigned] at held
    by_cases same : other = vreg
    · subst same
      rw [Function.update_self, Option.some.injEq] at held
      exact absurd held (elsewhere reg)
    · rw [Function.update_of_ne same] at held
      exact ⟨same, held⟩
  constructor
  case size => simpa using kept.size
  case fresh =>
    intro entry member
    rw [assigned, Function.update_of_ne (subset entry member).2]
    exact kept.fresh entry (subset entry member).1
  case decided =>
    intro other span otherInside otherRanged
    rw [assigned]
    by_cases same : other = vreg
    · subst same
      simp
    · rw [Function.update_of_ne same]
      rcases kept.decided other span otherInside otherRanged with member | done
      · exact (covered _ member).imp id (fun first => absurd first same)
      · exact Or.inr done
  case holders =>
    intro kind held member
    rw [evict_active] at member
    obtain ⟨sameKind, holding, spanned⟩ := kept.holders kind held ((dropped kind).mem member)
    exact ⟨sameKind, by rw [assigned, Function.update_of_ne (idle kind held member), holding], spanned⟩
  case distinct =>
    intro kind
    rw [evict_active]
    exact (kept.distinct kind).sublist ((dropped kind).map _)
  case tracked =>
    intro other reg span held otherRanged
    rw [evict_active]
    obtain ⟨different, holding⟩ := older other reg held
    exact (kept.tracked other reg span holding otherRanged).imp
      (fun member => remaining _ _ member different) fun ended entry member => ended entry (subset entry member).1
  case homes => exact fun other reg span held => kept.homes other reg span (older other reg held).2
  case packed =>
    rw [assigned, registerPlace_other _ _ _ elsewhere]
    exact kept.packed.remove vreg
  case base =>
    unfold ScanState.evict
    split
    · exact kept.base
    · exact (allocate_cases state.spillAllocator range.start range.end).choose_spec.2.1.trans kept.base
  case spilled =>
    obtain ⟨slotOf, recorded, offsets⟩ := kept.spilled
    rw [assigned]
    cases remat : ctx.canRemat vreg with
    | some op =>
      have allocator : (ScanState.evict ctx { state with active } vreg range.start range.end).spillAllocator = state.spillAllocator := by
        simp only [ScanState.evict, remat]
      refine ⟨slotOf, by rw [allocator]; exact recorded, ?_⟩
      intro other offset held
      by_cases same : other = vreg
      · subst same
        simp [evictedAs, remat] at held
      · rw [Function.update_of_ne same] at held
        exact offsets other offset held
    | none =>
      have allocator : (ScanState.evict ctx { state with active } vreg range.start range.end).spillAllocator =
          (state.spillAllocator.allocate range.start range.end).1 := by
        simp only [ScanState.evict, remat]
      obtain ⟨slot, offset, recorded⟩ := recorded.allocate id Conflict.symm vreg range ranged
      refine ⟨_, by rw [allocator]; exact recorded, ?_⟩
      intro other found held
      by_cases same : other = vreg
      · subst same
        simp only [Function.update_self, evictedAs, remat, Option.some.injEq, Allocation.spill.injEq] at held
        exact ⟨slot, by rw [Function.update_self], by rw [← held, offset, kept.base]⟩
      · rw [Function.update_of_ne same] at held ⊢
        exact offsets other found held

/-- Releasing a register leaves no other holder of it in its class. -/
theorem Invariant.released {kind : RegClass} {index : Nat} {held : ActiveInterval Reg}
    (kept : Invariant ctx vregCount existingLocals rest state) (found : (state.active kind)[index]? = some held) :
    ∀ other ∈ (state.active kind).eraseIdx index, other.reg ≠ held.reg := by
  intro other member same
  obtain ⟨position, different, stored⟩ := List.mem_eraseIdx_iff_getElem?.mp member
  apply different
  have inside : position < ((state.active kind).map ActiveInterval.reg).length := by
    simpa using (List.getElem?_eq_some_iff.mp stored).1
  exact (List.getElem?_inj inside (kept.distinct kind)).mp (by simp [stored, found, same])

theorem Invariant.saveRegister (kept : Invariant ctx vregCount existingLocals rest state) (reg : Reg) :
    Invariant ctx vregCount existingLocals rest (state.saveRegister reg) := by
  constructor
  case size => simpa using kept.size
  case fresh => simpa using kept.fresh
  case decided => simpa using kept.decided
  case holders => simpa using kept.holders
  case distinct => simpa using kept.distinct
  case tracked => simpa using kept.tracked
  case homes => simpa using kept.homes
  case packed => simpa using kept.packed
  case base => simpa using kept.base
  case spilled => simpa using kept.spilled

/-- Taking a holder's register for the next interval. -/
theorem Invariant.displace {vreg : VReg} {range : LiveRange} {index : Nat} {held : ActiveInterval Reg}
    (kept : Invariant ctx vregCount existingLocals ((vreg, range) :: rest) state)
    (agenda : Agenda ctx vregCount ((vreg, range) :: rest))
    (found : (state.active (ctx.liveness.classOf vreg))[index]? = some held)
    (survives : ctx.survives vreg range held.reg = true) :
    Invariant ctx vregCount existingLocals rest
      ((ScanState.evict ctx (state.release (ctx.liveness.classOf vreg) index) held.vreg
        (((ctx.liveness.range held.vreg).map LiveRange.start).getD 0) held.end).occupy
          (ctx.liveness.classOf vreg) vreg held.reg range) := by
  obtain ⟨sameKind, holding, span, spanned, ends⟩ := kept.holders _ held (List.mem_of_getElem? found)
  have unheld := kept.released found
  have notFresh : ∀ entry ∈ (vreg, range) :: rest, entry.1 ≠ held.vreg := by
    intro entry member same
    have unassigned := kept.fresh entry member
    rw [same, holding] at unassigned
    cases unassigned
  have home : held.reg ∈ (ctx.save vreg).regs := by
    have sameSave : ctx.save vreg = ctx.save held.vreg := by simp only [ScanContext.save, sameKind]
    rw [sameSave]
    exact (kept.homes held.vreg held.reg span holding spanned).1
  have evicted : Invariant ctx vregCount existingLocals ((vreg, range) :: rest)
      (ScanState.evict ctx (state.release (ctx.liveness.classOf vreg) index) held.vreg span.start span.end) := by
    apply kept.evict _ (fun entry member => ⟨member, notFresh entry member⟩) (fun entry member => Or.inl member)
      spanned (kept.size ▸ assigned_lt holding)
    · intro kind
      simp only [Function.update_apply]
      split
      next same => subst same; exact List.eraseIdx_sublist _ _
      next => exact List.Sublist.refl _
    · intro kind other member same
      have older : other ∈ state.active kind := by
        simp only [Function.update_apply] at member
        split at member
        next sameKind => exact sameKind ▸ (List.eraseIdx_sublist _ _).mem member
        next => exact member
      obtain ⟨otherKind, otherHolding, _⟩ := kept.holders kind other older
      rw [same, holding, Option.some.injEq, Allocation.register.injEq] at otherHolding
      have kinds : kind = ctx.liveness.classOf vreg := by rw [← otherKind, same, sameKind]
      rw [kinds, Function.update_self] at member
      exact unheld other member otherHolding.symm
    · intro kind other member different
      simp only [Function.update_apply]
      split
      next sameKind =>
        subst sameKind
        obtain ⟨position, stored⟩ := List.mem_iff_getElem?.mp member
        refine List.mem_eraseIdx_iff_getElem?.mpr ⟨position, ?_, stored⟩
        rintro rfl
        rw [found, Option.some.injEq] at stored
        exact different (congrArg ActiveInterval.vreg stored.symm)
      next => exact member
  rw [spanned, ← ends]
  apply evicted.occupy agenda ?_ home survives
  intro other member
  rw [evict_active] at member
  simp only [ScanState.release, Function.update_self] at member
  exact unheld other member

theorem scanInterval_preserves {vreg : VReg} {range : LiveRange}
    (kept : Invariant ctx vregCount existingLocals ((vreg, range) :: rest) state)
    (agenda : Agenda ctx vregCount ((vreg, range) :: rest)) :
    Invariant ctx vregCount existingLocals rest (scanInterval ctx state (vreg, range)) := by
  have expired := kept.expire agenda (ctx.liveness.classOf vreg)
  obtain ⟨ranged, inside⟩ := agenda.ranged _ List.mem_cons_self
  rcases scanInterval_cases ctx state vreg range with
    ⟨reg, _, _, unused, home, survives, result⟩ | ⟨index, held, _, _, found, survives, result⟩ | ⟨_, _, result⟩
  · have occupied := expired.occupy agenda unused home survives
    rw [result]
    split
    · exact occupied.saveRegister reg
    · exact occupied
  · rw [result]
    exact expired.displace agenda found survives
  · rw [result]
    apply expired.evict (state.expire (ctx.liveness.classOf vreg) range.start).active
      ?_ ?_ ranged inside (fun _ => List.Sublist.refl _) ?_ (fun _ _ member _ => member)
    · intro entry member
      refine ⟨List.mem_cons_of_mem _ member, fun same => ?_⟩
      exact (List.nodup_cons.mp agenda.distinct).1 (List.mem_map.mpr ⟨entry, member, same⟩)
    · intro entry member
      rcases List.mem_cons.mp member with rfl | later
      · exact Or.inr rfl
      · exact Or.inl later
    · intro kind held member same
      have holding := (expired.holders kind held member).2.1
      have unassigned := expired.fresh _ List.mem_cons_self
      dsimp only at unassigned
      rw [same, unassigned] at holding
      cases holding

/-- The invariant holds after any number of iterations. -/
theorem run_preserves (kept : Invariant ctx vregCount existingLocals rest state)
    (agenda : Agenda ctx vregCount rest) :
    Invariant ctx vregCount existingLocals [] (rest.foldl (scanInterval ctx) state) := by
  induction rest generalizing state with
  | nil => exact kept
  | cons entry rest ih => exact ih (scanInterval_preserves kept agenda) agenda.tail

end Rue.Proofs.LinearScanSafety
