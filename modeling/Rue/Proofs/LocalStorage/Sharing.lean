import Rue.Proofs.LocalStorage.Windows

/-! What a plan promises: its cells lie in the frame, keep each run in one piece,
and are shared only by locals whose windows are never open together. -/

namespace Rue.Proofs.LocalStorage
open Rue.Codegen

def Covers (placed : PlacedEntity) (slot : Nat) : Prop :=
  placed.entity.base ≤ slot ∧ slot < placed.entity.base + placed.entity.span

theorem assignRegions_entities {conflict : Nat → Nat → Bool} {ceiling : Nat} {entities : List SlotEntity}
    {placed layout : List PlacedEntity} (assigned : assignRegions conflict ceiling placed entities = some layout) :
    layout.map PlacedEntity.entity = placed.map PlacedEntity.entity ++ entities := by
  induction entities generalizing placed with
  | nil =>
    cases assigned
    simp
  | cons entity rest ih =>
    obtain ⟨offset, _, assigned⟩ := Option.bind_eq_some_iff.mp assigned
    simp only at assigned
    split at assigned
    · rw [ih assigned]
      simp
    · cases assigned

theorem verifySharing_spec {conflict : Nat → Nat → Bool} {layout : List PlacedEntity}
    (verified : verifySharing conflict layout = true) {first second : Nat} (before : first < second)
    {one other : PlacedEntity} (known : layout[first]? = some one) (found : layout[second]? = some other)
    (overlap : regionsOverlap one other = true) : conflict first second = false := by
  obtain ⟨inside, _⟩ := List.getElem?_eq_some_iff.mp found
  have checked := List.all_eq_true.mp verified second (List.mem_range.mpr inside)
  simp only [found, Option.all_some, verifyPlacement, List.all_eq_true] at checked
  have here : (layout.take second)[first]? = some one := by
    rw [List.getElem?_take_of_lt before]
    exact known
  have length : (layout.take second).length = second := by
    rw [List.length_take]
    omega
  have apart := checked (one, first) (List.mem_zipIdx_iff_getElem?.mpr here)
  simpa [overlap, length] using apart

theorem placedCell_of_unique {layout : List PlacedEntity} {slot : Nat} {owner : PlacedEntity}
    (member : owner ∈ layout) (covers : Covers owner slot)
    (unique : ∀ other ∈ layout, Covers other slot → other = owner) :
    placedCell layout slot = some (owner.offset + (slot - owner.entity.base)) := by
  have stays : ∀ (rest : List PlacedEntity), (∀ other ∈ rest, Covers other slot → other = owner) →
      rest.foldl (fun found last =>
        if last.entity.base ≤ slot ∧ slot < last.entity.base + last.entity.span
        then some (last.offset + (slot - last.entity.base)) else found)
          (some (owner.offset + (slot - owner.entity.base))) = some (owner.offset + (slot - owner.entity.base)) := by
    intro rest only
    induction rest with
    | nil => rfl
    | cons last rest ih =>
      simp only [List.foldl_cons]
      split
      next covered =>
        rw [only last (by simp) covered]
        exact ih fun other member => only other (by simp [member])
      next => exact ih fun other member => only other (by simp [member])
  obtain ⟨early, late, rfl⟩ := List.append_of_mem member
  rw [placedCell, List.foldl_append, List.foldl_cons]
  simp only [if_pos (show owner.entity.base ≤ slot ∧ slot < owner.entity.base + owner.entity.span from covers)]
  exact stays late fun other inside => unique other (by simp [inside])

/-! Locals: the run a reference gives a slot, its markers and its address. -/

/-- Does some attached instruction refer to a run rooted at `root` that holds `slot`? -/
def runOf (cfg : Cfg) (pool : TypePool) (root slot : Nat) : Bool :=
  cfg.attached.any fun value => (dataReference cfg pool value).any fun reference =>
    reference.base = root && root ≤ slot && slot < root + reference.span

theorem runOf_iff {cfg : Cfg} {pool : TypePool} {root slot : Nat} : runOf cfg pool root slot = true ↔
    ∃ value ∈ cfg.attached, ∃ reference, dataReference cfg pool value = some reference ∧ reference.base = root ∧
      root ≤ slot ∧ slot < root + reference.span := by
  simp [runOf, Option.any_eq_true, and_assoc]

def Marked (cfg : Cfg) (root : Nat) : Prop :=
  ∃ value ∈ cfg.attached, ∃ localTy, (cfg.inst value).data = .storageLive root localTy

/-- A raw-pointer intrinsic takes the address of a place rooted at the slot. -/
def AddressTaken (cfg : Cfg) (pool : TypePool) (root : Nat) : Prop :=
  ∃ arg ∈ addressEscapingOperands cfg, arg ∈ cfg.attached ∧
    ∃ reference, dataReference cfg pool arg = some reference ∧ reference.base = root

structure MayShare (cfg : Cfg) (pool : TypePool) (first second : Nat) : Prop where
  firstMarked : Marked cfg first
  secondMarked : Marked cfg second
  firstKept : ¬ AddressTaken cfg pool first
  secondKept : ¬ AddressTaken cfg pool second
  apart : ∀ executed block rest, cfg.Reaches executed block rest →
    ¬ (windowOpen cfg first executed = true ∧ windowOpen cfg second executed = true)

/-- What the planner has established of a layout that it returns. -/
structure Planned (cfg : Cfg) (pool : TypePool) (refs : SlotReferences) (liveIn : BlockId → Finset Nat)
    (layout : List PlacedEntity) (plan : LocalSlotPlan) : Prop where
  collected : collectSlotReferences cfg pool = some refs
  tiling : Tiling cfg.numLocals (rootFacts (cfg.attached.filterMap refs)) 0 (layout.map PlacedEntity.entity)
  solves : Solves cfg (layout.map PlacedEntity.entity) refs (reachableBlocks cfg) liveIn
  verified : verifySharing (interferes (layout.map PlacedEntity.entity)
    (auditAndCollectInterference cfg (layout.map PlacedEntity.entity) refs (reachableBlocks cfg) liveIn)) layout = true
  total : plan.frameLocalSlots = frameLocalSlots layout
  smaller : plan.frameLocalSlots < cfg.numLocals
  cells : ∀ slot, if slot < cfg.numLocals then placedCell layout slot = some (plan.frameSlot slot)
    else plan.frameSlot slot = slot

theorem mapM_getElem? {α β : Type} {f : α → Option β} {items : List α} {results : List β}
    (mapped : items.mapM f = some results) :
    results.length = items.length ∧ ∀ index : Nat, results[index]? = items[index]?.bind f := by
  induction items generalizing results with
  | nil =>
    cases mapped
    simp
  | cons item rest ih =>
    rw [List.mapM_cons] at mapped
    obtain ⟨first, here, mapped⟩ := Option.bind_eq_some_iff.mp mapped
    obtain ⟨later, there, same⟩ := Option.bind_eq_some_iff.mp mapped
    cases same
    obtain ⟨length, all⟩ := ih there
    refine ⟨by simp [length], ?_⟩
    intro index
    cases index with
    | zero => simp [here]
    | succ index => simpa using all index

theorem tryPlan_planned {cfg : Cfg} {pool : TypePool} {plan : LocalSlotPlan}
    (planned : LocalSlotPlan.tryPlan cfg pool = some plan) : ∃ refs liveIn layout, Planned cfg pool refs liveIn layout plan := by
  unfold LocalSlotPlan.tryPlan at planned
  split at planned
  · cases planned
  · split at planned
    · cases planned
    · obtain ⟨refs, collected, planned⟩ := Option.bind_eq_some_iff.mp planned
      obtain ⟨entities, built, planned⟩ := Option.bind_eq_some_iff.mp planned
      split at planned
      · cases planned
      · obtain ⟨liveIn, solved, planned⟩ := Option.bind_eq_some_iff.mp planned
        obtain ⟨layout, assigned, planned⟩ := Option.bind_eq_some_iff.mp planned
        split at planned
        · cases planned
        next verified =>
          split at planned
          · cases planned
          next smaller =>
            obtain ⟨cells, mapped, same⟩ := Option.bind_eq_some_iff.mp planned
            cases same
            have runs : layout.map PlacedEntity.entity = entities := by simpa using assignRegions_entities assigned
            refine ⟨refs, liveIn, layout, collected, ?_, ?_, ?_, rfl, by simpa using smaller, ?_⟩
            · rw [runs]
              exact entitiesFrom_tiling (by omega) built
            · rw [runs]
              exact solveMayBeLive_solves solved
            · rw [runs]
              simpa using verified
            · intro slot
              obtain ⟨length, all⟩ := mapM_getElem? mapped
              rw [List.length_range] at length
              split
              next inside =>
                have here := all slot
                rw [List.getElem?_range inside, List.getElem?_eq_getElem (by omega)] at here
                simp only [Option.bind_some] at here
                simp [LocalSlotPlan.frameSlot, ← here, List.getElem?_eq_getElem (by omega : slot < cells.length)]
              next outside =>
                simp [LocalSlotPlan.frameSlot, List.getElem?_eq_none (by omega : cells.length ≤ slot)]

namespace Planned

variable {cfg : Cfg} {pool : TypePool} {refs : SlotReferences} {liveIn : BlockId → Finset Nat}
  {layout : List PlacedEntity} {plan : LocalSlotPlan}

variable {index slot : Nat} {owner : PlacedEntity}

theorem mapped (known : layout[index]? = some owner) :
    (layout.map PlacedEntity.entity)[index]? = some owner.entity := by
  rw [List.getElem?_map, known, Option.map_some]

/-- Every local slot lies in the region of the one entity that covers it. -/
theorem cell (planned : Planned cfg pool refs liveIn layout plan) (inside : slot < cfg.numLocals) :
    ∃ (index : Nat) (owner : PlacedEntity), layout[index]? = some owner ∧ Covers owner slot ∧
      plan.frameSlot slot = owner.offset + (slot - owner.entity.base) := by
  obtain ⟨entity, member, covered⟩ := planned.tiling.covers slot (Nat.zero_le _) inside
  obtain ⟨owner, listed, rfl⟩ := List.mem_map.mp member
  obtain ⟨index, known⟩ := List.mem_iff_getElem?.mp listed
  refine ⟨index, owner, known, covered, ?_⟩
  have found := planned.cells slot
  rw [if_pos inside] at found
  have decided := placedCell_of_unique listed covered (by
    intro other inLayout also
    obtain ⟨second, there⟩ := List.mem_iff_getElem?.mp inLayout
    have same : index = second := planned.tiling.unique (mapped known) (mapped there) covered also
    subst same
    exact Option.some.inj (there.symm.trans known))
  exact Option.some.inj (found.symm.trans decided)

theorem rooted (planned : Planned cfg pool refs liveIn layout plan)
    (known : layout[index]? = some owner) :
    WellRooted cfg.numLocals (rootFacts (cfg.attached.filterMap refs)) owner.entity :=
  (planned.tiling.rooted _ (List.mem_map.mpr ⟨owner, List.mem_of_getElem? known, rfl⟩)).2

theorem frameSlot_lt (planned : Planned cfg pool refs liveIn layout plan)
    (inside : slot < cfg.numLocals) : plan.frameSlot slot < plan.frameLocalSlots := by
  obtain ⟨index, owner, known, covered, same⟩ := planned.cell inside
  have fits := @measure_le_foldl_max _ (fun last : PlacedEntity => last.offset + last.entity.span)
    layout 0 owner (List.mem_of_getElem? known)
  rw [same, planned.total, frameLocalSlots]
  obtain ⟨above, below⟩ := covered
  omega

/-- Only the run of the entity that covers a slot holds it. -/
theorem root_eq (planned : Planned cfg pool refs liveIn layout plan) {root : Nat}
    (held : runOf cfg pool root slot = true) (known : layout[index]? = some owner) (covered : Covers owner slot) :
    root = owner.entity.base := by
  obtain ⟨value, attached, reference, named, rfl, above, below⟩ := runOf_iff.mp held
  have inside := (planned.rooted known).inside
  have reach := covered.2
  obtain ⟨kind, found, _⟩ := collected_of_dataReference planned.collected attached named (by omega)
  have wide := span_le_rootFacts (mem_listed attached found)
  obtain ⟨entity, member, covers⟩ := planned.tiling.covers reference.base (Nat.zero_le _) (by omega)
  obtain ⟨holder, listed, rfl⟩ := List.mem_map.mp member
  obtain ⟨second, there⟩ := List.mem_iff_getElem?.mp listed
  have wellRooted := planned.rooted there
  have starts : holder.entity.base = reference.base := by
    by_contra different
    have none := wellRooted.interior reference.base (by omega) covers.2
    simp only at wide
    omega
  have widest := wellRooted.widest
  rw [starts] at widest
  simp only at wide
  have same : second = index := planned.tiling.unique (mapped there) (mapped known)
    ⟨by omega, by omega⟩ covered
  subst same
  cases there.symm.trans known
  exact starts.symm

theorem unescaped (planned : Planned cfg pool refs liveIn layout plan)
    (known : layout[index]? = some owner) (shares : owner.entity.shareable = true) :
    Unescaped cfg refs owner.entity.base :=
  not_escape_of_rootFacts ((planned.rooted known).marked shares).2.2

/-- A shareable entity is a marked local whose address nothing takes. -/
theorem shareable_local (planned : Planned cfg pool refs liveIn layout plan)
    (known : layout[index]? = some owner) (shares : owner.entity.shareable = true) :
    Marked cfg owner.entity.base ∧ ¬ AddressTaken cfg pool owner.entity.base ∧
      ∀ slot, Covers owner slot → runOf cfg pool owner.entity.base slot = true := by
  obtain ⟨whole, live, _⟩ := (planned.rooted known).marked shares
  have kept := planned.unescaped known shares
  have inside := (planned.rooted known).inside
  have nonempty := (planned.rooted known).nonempty
  refine ⟨?_, ?_, ?_⟩
  · obtain ⟨reference, listed, base, kind⟩ := exists_live_of_rootFacts live
    obtain ⟨value, attached, found⟩ := List.mem_filterMap.mp listed
    obtain ⟨_, original, named, same⟩ := attached_of_collected planned.collected found
    have opens : markerOf cfg owner.entity.base value = some true := by
      rw [markerOf_eq_iff pool]
      refine ⟨reference.span, ?_⟩
      rw [named, base]
      rcases same with same | escape
      · rw [← same, kind]
        rfl
      · rw [kind] at escape
        cases escape
    refine ⟨value, attached, ?_⟩
    simp only [markerOf] at opens
    split at opens
    next slot localTy data =>
      split at opens
      next same => exact ⟨localTy, same ▸ data⟩
      · cases opens
    next slot localTy data =>
      split at opens <;> cases opens
    · cases opens
  · rintro ⟨arg, escapes, attached, reference, named, base⟩
    obtain ⟨kind, found, same⟩ := collected_of_dataReference planned.collected attached named (by omega)
    rcases same with ⟨_, kept⟩ | ⟨escape, _⟩
    · exact kept escapes
    · exact kept _ (mem_listed attached found) base escape
  · intro slot covered
    have wide : 0 < (rootFacts (cfg.attached.filterMap refs) owner.entity.base).span := by omega
    obtain ⟨reference, listed, base, span⟩ := exists_widest wide
    obtain ⟨value, attached, found⟩ := List.mem_filterMap.mp listed
    obtain ⟨_, kind, named, _⟩ := attached_of_collected planned.collected found
    have below := covered.2
    exact runOf_iff.mpr ⟨value, attached, _, named, base, covered.1, by simp only; omega⟩

theorem shareable_of_conflict {entities : List SlotEntity} {audit : Audit} {first second : Nat}
    (free : interferes entities audit first second = false) {one other : SlotEntity}
    (known : entities[first]? = some one) (found : entities[second]? = some other) :
    second ∉ audit.interference first ∧ one.shareable = true ∧ other.shareable = true := by
  simp only [interferes, isShareable, known, found, Option.any_some, Bool.or_eq_false_iff, Bool.not_eq_false',
    Bool.and_eq_true, decide_eq_false_iff_not] at free
  exact ⟨free.1.1, free.1.2.1, free.2.1⟩

theorem mayShare_of_overlap (bounds : cfg.InBounds) (planned : Planned cfg pool refs liveIn layout plan)
    {first second : Nat} (before : first < second) {one other : PlacedEntity} (known : layout[first]? = some one)
    (found : layout[second]? = some other) (overlap : regionsOverlap one other = true) :
    one.entity.shareable = true ∧ other.entity.shareable = true ∧
      MayShare cfg pool one.entity.base other.entity.base := by
  have free := verifySharing_spec planned.verified before known found overlap
  obtain ⟨apart, oneShares, otherShares⟩ := shareable_of_conflict free (mapped known) (mapped found)
  obtain ⟨oneMarked, oneKept, _⟩ := planned.shareable_local known oneShares
  obtain ⟨otherMarked, otherKept, _⟩ := planned.shareable_local found otherShares
  refine ⟨oneShares, otherShares, oneMarked, otherMarked, oneKept, otherKept, ?_⟩
  rintro executed block rest reached ⟨oneOpen, otherOpen⟩
  exact apart (interference_of_open bounds planned.collected planned.tiling planned.solves reached (mapped known)
    (mapped found) (by omega) (planned.unescaped known oneShares) (planned.unescaped found otherShares)
    oneOpen otherOpen)

/-- Slots that share a cell belong to locals that may. -/
theorem mayShare (bounds : cfg.InBounds) (planned : Planned cfg pool refs liveIn layout plan) {other : Nat}
    (different : slot ≠ other) (same : plan.frameSlot slot = plan.frameSlot other) :
    ∃ first second, runOf cfg pool first slot = true ∧ runOf cfg pool second other = true ∧
      (∀ root, runOf cfg pool root slot = true → root = first) ∧
      (∀ root, runOf cfg pool root other = true → root = second) ∧ MayShare cfg pool first second := by
  have outside {slot : Nat} (past : ¬ slot < cfg.numLocals) : plan.frameSlot slot = slot := by
    have cell := planned.cells slot
    rwa [if_neg past] at cell
  have smaller := planned.smaller
  by_cases inside : slot < cfg.numLocals
  · have low := planned.frameSlot_lt inside
    by_cases within : other < cfg.numLocals
    · obtain ⟨first, one, known, covered, cell⟩ := planned.cell inside
      obtain ⟨second, two, found, covers, place⟩ := planned.cell within
      rw [cell, place] at same
      obtain ⟨above, below⟩ := covered
      obtain ⟨starts, ends⟩ := covers
      have overlap : regionsOverlap one two = true := by
        simp only [regionsOverlap, Bool.and_eq_true, decide_eq_true_eq]
        omega
      have overlap' : regionsOverlap two one = true := by
        simp only [regionsOverlap, Bool.and_eq_true, decide_eq_true_eq]
        omega
      have both : one.entity.shareable = true ∧ two.entity.shareable = true ∧
          MayShare cfg pool one.entity.base two.entity.base := by
        rcases Nat.lt_trichotomy first second with before | equal | after
        · exact planned.mayShare_of_overlap bounds before known found overlap
        · subst equal
          cases known.symm.trans found
          omega
        · obtain ⟨twoShares, oneShares, sharing⟩ := planned.mayShare_of_overlap bounds after found known overlap'
          exact ⟨oneShares, twoShares, sharing.secondMarked, sharing.firstMarked, sharing.secondKept,
            sharing.firstKept, fun executed block rest reached open' => sharing.apart executed block rest reached open'.symm⟩
      refine ⟨one.entity.base, two.entity.base, ?_, ?_, ?_, ?_, both.2.2⟩
      · exact (planned.shareable_local known both.1).2.2 slot ⟨above, below⟩
      · exact (planned.shareable_local found both.2.1).2.2 other ⟨starts, ends⟩
      · exact fun root held => planned.root_eq held known ⟨above, below⟩
      · exact fun root held => planned.root_eq held found ⟨starts, ends⟩
    · rw [outside within] at same
      omega
  · rw [outside inside] at same
    by_cases within : other < cfg.numLocals
    · have low := planned.frameSlot_lt within
      omega
    · rw [outside within] at same
      exact absurd same different

theorem contiguous (planned : Planned cfg pool refs liveIn layout plan) {root : Nat}
    (held : runOf cfg pool root slot = true) : plan.frameSlot slot = plan.frameSlot root + (slot - root) := by
  obtain ⟨value, attached, reference, named, base, above, below⟩ := runOf_iff.mp held
  have outside {slot : Nat} (past : ¬ slot < cfg.numLocals) : plan.frameSlot slot = slot := by
    have cell := planned.cells slot
    rwa [if_neg past] at cell
  by_cases inside : root < cfg.numLocals
  · obtain ⟨kind, found, _⟩ := collected_of_dataReference planned.collected attached named (by omega)
    have fits := (collected_fits planned.collected found).2
    simp only at fits
    obtain ⟨index, owner, known, covered, cell⟩ := planned.cell (by omega : slot < cfg.numLocals)
    have same := planned.root_eq held known covered
    obtain ⟨second, first, there, covers, start⟩ := planned.cell inside
    have starts : runOf cfg pool root root = true :=
      runOf_iff.mpr ⟨value, attached, reference, named, base, Nat.le_refl _, by omega⟩
    have nonempty := (planned.rooted known).nonempty
    have equal : index = second :=
      planned.tiling.unique (mapped known) (mapped there) ⟨by omega, by omega⟩ covers
    subst equal
    cases known.symm.trans there
    omega
  · rw [outside inside, outside (by omega : ¬ slot < cfg.numLocals)]
    omega

end Planned

section Plan

variable {cfg : Cfg} {pool : TypePool}

theorem plan_cases (cfg : Cfg) (pool : TypePool) :
    LocalSlotPlan.plan cfg pool = .identity cfg.numLocals ∨
      ∃ refs liveIn layout, Planned cfg pool refs liveIn layout (LocalSlotPlan.plan cfg pool) := by
  cases tried : LocalSlotPlan.tryPlan cfg pool with
  | none => exact Or.inl (by simp [LocalSlotPlan.plan, tried])
  | some plan =>
    right
    rw [LocalSlotPlan.plan, tried, Option.getD_some]
    exact tryPlan_planned tried

theorem plan_frameSlot_lt {slot : Nat} (inside : slot < cfg.numLocals) :
    (LocalSlotPlan.plan cfg pool).frameSlot slot < (LocalSlotPlan.plan cfg pool).frameLocalSlots := by
  rcases plan_cases cfg pool with same | ⟨_, _, _, planned⟩
  · rw [same]
    exact inside
  · exact planned.frameSlot_lt inside

theorem plan_contiguous {root slot : Nat} (held : runOf cfg pool root slot = true) :
    (LocalSlotPlan.plan cfg pool).frameSlot slot =
      (LocalSlotPlan.plan cfg pool).frameSlot root + (slot - root) := by
  rcases plan_cases cfg pool with same | ⟨_, _, _, planned⟩
  · obtain ⟨_, _, _, _, _, above, _⟩ := runOf_iff.mp held
    rw [same]
    simp only [LocalSlotPlan.frameSlot, LocalSlotPlan.identity]
    omega
  · exact planned.contiguous held

theorem plan_mayShare (bounds : cfg.InBounds) {slot other : Nat} (different : slot ≠ other)
    (same : (LocalSlotPlan.plan cfg pool).frameSlot slot = (LocalSlotPlan.plan cfg pool).frameSlot other) :
    ∃ first second, runOf cfg pool first slot = true ∧ runOf cfg pool second other = true ∧
      (∀ root, runOf cfg pool root slot = true → root = first) ∧
      (∀ root, runOf cfg pool root other = true → root = second) ∧ MayShare cfg pool first second := by
  rcases plan_cases cfg pool with equal | ⟨_, _, _, planned⟩
  · rw [equal] at same
    exact absurd same different
  · exact planned.mayShare bounds different same

end Plan

end Rue.Proofs.LocalStorage
