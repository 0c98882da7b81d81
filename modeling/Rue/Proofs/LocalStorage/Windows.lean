import Rue.Codegen.LocalStorage
import Rue.Cfg.Verified

/-! The slot entities tile the local area, and every reference is rooted at one
that is as wide as the reference. -/

namespace Rue.Proofs.LocalStorage
open Rue.Codegen

/-- What the scan of the local area says of one run. -/
structure WellRooted (numLocals : Nat) (facts : Nat → RootFacts) (entity : SlotEntity) : Prop where
  nonempty : 0 < entity.span
  inside : entity.base + entity.span ≤ numLocals
  widest : (facts entity.base).span ≤ entity.span
  interior : ∀ slot, entity.base < slot → slot < entity.base + entity.span → (facts slot).span = 0
  marked : entity.shareable = true → (facts entity.base).span = entity.span ∧
    (facts entity.base).hasLive = true ∧ (facts entity.base).escapes = false

/-- Runs that cover the local area from a slot on, one after the other. -/
structure Tiling (numLocals : Nat) (facts : Nat → RootFacts) (slot : Nat) (entities : List SlotEntity) : Prop where
  rooted : ∀ entity ∈ entities, slot ≤ entity.base ∧ WellRooted numLocals facts entity
  ordered : entities.Pairwise fun first second => first.base + first.span ≤ second.base
  covers : ∀ other, slot ≤ other → other < numLocals →
    ∃ entity ∈ entities, entity.base ≤ other ∧ other < entity.base + entity.span

variable {numLocals : Nat} {facts : Nat → RootFacts}

theorem Tiling.nil {slot : Nat} (past : numLocals ≤ slot) : Tiling numLocals facts slot [] :=
  ⟨by simp, .nil, fun _ _ _ => by omega⟩

theorem Tiling.cons {slot next : Nat} {entity : SlotEntity} {rest : List SlotEntity} (base : entity.base = slot)
    (width : entity.base + entity.span = next) (rooted : WellRooted numLocals facts entity)
    (later : Tiling numLocals facts next rest) : Tiling numLocals facts slot (entity :: rest) := by
  subst base width
  refine ⟨?_, ?_, ?_⟩
  · intro other member
    rcases List.mem_cons.mp member with rfl | member
    · exact ⟨Nat.le_refl _, rooted⟩
    · obtain ⟨after, rooted⟩ := later.rooted other member
      exact ⟨by omega, rooted⟩
  · exact List.pairwise_cons.mpr ⟨fun other member => (later.rooted other member).1, later.ordered⟩
  · intro other above below
    by_cases inside : other < entity.base + entity.span
    · exact ⟨entity, by simp, above, inside⟩
    · obtain ⟨owner, member, covered⟩ := later.covers other (by omega) below
      exact ⟨owner, by simp [member], covered⟩

/-- With as many rounds as slots are left the scan reaches the end. -/
theorem entitiesFrom_tiling {rounds slot : Nat} {entities : List SlotEntity} (enough : numLocals ≤ slot + rounds)
    (built : entitiesFrom numLocals facts rounds slot = some entities) : Tiling numLocals facts slot entities := by
  induction rounds generalizing slot entities with
  | zero =>
    cases built
    exact Tiling.nil enough
  | succ rounds ih =>
    simp only [entitiesFrom] at built
    split at built
    next past =>
      cases built
      exact Tiling.nil past
    next before =>
      split at built
      next unreferenced =>
        obtain ⟨rest, later, same⟩ := Option.bind_eq_some_iff.mp built
        cases same
        have after := @ih (slot + 1) rest (by omega) later
        refine Tiling.cons rfl rfl ?_ after
        exact ⟨by simp, by simp only; omega, by simp [unreferenced], fun other _ _ => by simp only at *; omega,
          fun shares => by cases shares⟩
      next referenced =>
        split at built
        · cases built
        next fits =>
          split at built
          · cases built
          next whole =>
            obtain ⟨rest, later, same⟩ := Option.bind_eq_some_iff.mp built
            cases same
            have after := @ih (slot + (facts slot).span) rest (by omega) later
            refine Tiling.cons rfl rfl ?_ after
            refine ⟨by simp only; omega, by simp only; omega, Nat.le_refl _, ?_, ?_⟩
            · intro interior after inside
              simp only [List.any_eq_true, not_exists, not_and, decide_eq_true_eq, not_not, List.mem_range'_1] at whole
              simp only at after inside
              exact whole interior ⟨by omega, by omega⟩
            · intro shares
              simpa using shares

section Maximum

variable {α : Type} (measure : α → Nat)

theorem le_foldl_max {items : List α} {start : Nat} :
    start ≤ items.foldl (fun total item => max total (measure item)) start := by
  induction items generalizing start with
  | nil => exact Nat.le_refl _
  | cons item rest ih => exact Nat.le_trans (Nat.le_max_left _ _) ih

theorem measure_le_foldl_max {items : List α} {start : Nat} {item : α} (member : item ∈ items) :
    measure item ≤ items.foldl (fun total item => max total (measure item)) start := by
  induction items generalizing start with
  | nil => cases member
  | cons other rest ih =>
    rcases List.mem_cons.mp member with rfl | member
    · exact Nat.le_trans (Nat.le_max_right _ _) (le_foldl_max measure)
    · exact ih member

theorem exists_measure_of_foldl_max (items : List α) (start : Nat) :
    items.foldl (fun total item => max total (measure item)) start = start ∨
      ∃ item ∈ items, items.foldl (fun total item => max total (measure item)) start = measure item := by
  induction items generalizing start with
  | nil => exact Or.inl rfl
  | cons other rest ih =>
    simp only [List.foldl_cons]
    rcases ih (max start (measure other)) with same | ⟨item, member, same⟩
    · rw [same]
      rcases Nat.le_total start (measure other) with below | above
      · exact Or.inr ⟨other, by simp, by omega⟩
      · exact Or.inl (by omega)
    · exact Or.inr ⟨item, by simp [member], same⟩

end Maximum

variable {references : List SlotReference}

theorem span_le_rootFacts {reference : SlotReference} (member : reference ∈ references) :
    reference.span ≤ (rootFacts references reference.base).span :=
  measure_le_foldl_max SlotReference.span (List.mem_filter.mpr ⟨member, by simp⟩)

/-- A root some reference names with a width has a reference of its full width. -/
theorem exists_widest {slot : Nat} (wide : 0 < (rootFacts references slot).span) :
    ∃ reference ∈ references, reference.base = slot ∧ reference.span = (rootFacts references slot).span := by
  rcases exists_measure_of_foldl_max SlotReference.span (references.filter (·.base = slot)) 0 with
    none | ⟨reference, member, same⟩
  · simp only [rootFacts] at wide
    omega
  · obtain ⟨member, rooted⟩ := List.mem_filter.mp member
    exact ⟨reference, member, by simpa using rooted, same.symm⟩

theorem not_escape_of_rootFacts {slot : Nat} (kept : (rootFacts references slot).escapes = false) :
    ∀ reference ∈ references, reference.base = slot → reference.kind ≠ .addressEscape := by
  intro reference member rooted escape
  simp only [rootFacts, List.any_eq_false, List.mem_filter, decide_eq_true_eq] at kept
  exact kept reference ⟨member, rooted⟩ escape

theorem exists_live_of_rootFacts {slot : Nat} (marked : (rootFacts references slot).hasLive = true) :
    ∃ reference ∈ references, reference.base = slot ∧ reference.kind = .live := by
  simp only [rootFacts, List.any_eq_true, List.mem_filter, decide_eq_true_eq] at marked
  obtain ⟨reference, ⟨member, rooted⟩, live⟩ := marked
  exact ⟨reference, member, rooted, live⟩

namespace Tiling

variable {entities : List SlotEntity} {slot : Nat}

theorem unique (tiling : Tiling numLocals facts slot entities) {first second : Nat} {one other : SlotEntity}
    (known : entities[first]? = some one) (found : entities[second]? = some other) {common : Nat}
    (inOne : one.base ≤ common ∧ common < one.base + one.span)
    (inOther : other.base ≤ common ∧ common < other.base + other.span) : first = second := by
  obtain ⟨insideOne, rfl⟩ := List.getElem?_eq_some_iff.mp known
  obtain ⟨insideOther, rfl⟩ := List.getElem?_eq_some_iff.mp found
  have ordered := List.pairwise_iff_getElem.mp tiling.ordered
  rcases Nat.lt_trichotomy first second with before | same | after
  · have := ordered first second insideOne insideOther before
    omega
  · exact same
  · have := ordered second first insideOther insideOne after
    omega

theorem entityAtBase_eq (tiling : Tiling numLocals facts slot entities) {index : Nat} {entity : SlotEntity}
    (known : entities[index]? = some entity) : entityAtBase entities entity.base = some index := by
  obtain ⟨inside, rfl⟩ := List.getElem?_eq_some_iff.mp known
  rw [entityAtBase, List.findIdx?_eq_some_iff_getElem]
  refine ⟨inside, by simp, ?_⟩
  intro earlier before same
  have ordered := List.pairwise_iff_getElem.mp tiling.ordered earlier index (by omega) inside before
  have wide := (tiling.rooted _ (List.getElem_mem (by omega : earlier < entities.length))).2.nonempty
  simp only [decide_eq_true_eq] at same
  omega

end Tiling

theorem base_of_entityAtBase {entities : List SlotEntity} {base index : Nat}
    (found : entityAtBase entities base = some index) : ∃ entity, entities[index]? = some entity ∧ entity.base = base := by
  obtain ⟨inside, rooted, _⟩ := List.findIdx?_eq_some_iff_getElem.mp found
  exact ⟨_, List.getElem?_eq_getElem inside, by simpa using rooted⟩

end Rue.Proofs.LocalStorage

/-! Storage windows along paths: the dataflow contains every window open on some
path, and the audit records every two of them as interfering. -/

namespace Rue.Proofs.LocalStorage
open Rue.Codegen

/-- What one instruction does to the window of the local rooted at a slot. -/
def markerOf (cfg : Cfg) (root : Nat) (value : CfgValue) : Option Bool :=
  match (cfg.inst value).data with
  | .storageLive slot _ => if slot = root then some true else none
  | .storageDead slot _ => if slot = root then some false else none
  | _ => none

/-- Is the window of the local rooted at a slot open after these instructions? -/
def windowOpen (cfg : Cfg) (root : Nat) (executed : List CfgValue) : Bool :=
  executed.foldl (fun isOpen value => (markerOf cfg root value).getD isOpen) false

theorem windowOpen_append (cfg : Cfg) (root : Nat) (executed : List CfgValue) (value : CfgValue) :
    windowOpen cfg root (executed ++ [value]) = (markerOf cfg root value).getD (windowOpen cfg root executed) := by
  simp [windowOpen]

/-! The references of attached instructions, as the plan collects them. -/

section References

variable {cfg : Cfg} {pool : TypePool} {refs : SlotReferences}

theorem collectSlotReferences_eq (collected : collectSlotReferences cfg pool = some refs) (value : CfgValue) :
    refs value = if value ∈ cfg.attached then localReference cfg pool value else none := by
  simp only [collectSlotReferences] at collected
  split at collected
  · cases collected
    rfl
  · cases collected

theorem collected_fits (collected : collectSlotReferences cfg pool = some refs) {value : CfgValue}
    {reference : SlotReference} (found : refs value = some reference) :
    reference.base < cfg.numLocals ∧ reference.base + reference.span ≤ cfg.numLocals := by
  rw [collectSlotReferences_eq collected] at found
  split at found
  next attached =>
    simp only [collectSlotReferences] at collected
    split at collected
    next all =>
      have fits := List.all_eq_true.mp all value attached
      simp only [found, Option.all_some, decide_eq_true_eq] at fits
      refine ⟨?_, fits⟩
      simp only [localReference] at found
      split at found
      · cases found
      · split at found
        · cases found
        · split at found <;> cases found <;> simp_all
    · cases collected
  · cases found

/-- An instruction that names a slot of the local area has a collected reference
with the same run; only an escape changes its kind. -/
theorem collected_of_dataReference (collected : collectSlotReferences cfg pool = some refs) {value : CfgValue}
    (attached : value ∈ cfg.attached) {reference : SlotReference}
    (named : dataReference cfg pool value = some reference) (inside : reference.base < cfg.numLocals) :
    ∃ kind, refs value = some { reference with kind } ∧
      (kind = reference.kind ∧ value ∉ addressEscapingOperands cfg ∨
        kind = .addressEscape ∧ value ∈ addressEscapingOperands cfg) := by
  rw [collectSlotReferences_eq collected, if_pos attached]
  simp only [localReference, named, if_neg (Nat.not_le.mpr inside)]
  split
  next escapes => exact ⟨_, rfl, Or.inr ⟨rfl, escapes⟩⟩
  next kept => exact ⟨_, rfl, Or.inl ⟨rfl, kept⟩⟩

theorem mem_listed {value : CfgValue} {reference : SlotReference} (attached : value ∈ cfg.attached)
    (found : refs value = some reference) : reference ∈ cfg.attached.filterMap refs :=
  List.mem_filterMap.mpr ⟨value, attached, found⟩

theorem attached_of_collected (collected : collectSlotReferences cfg pool = some refs) {value : CfgValue}
    {reference : SlotReference} (found : refs value = some reference) :
    value ∈ cfg.attached ∧ ∃ kind, dataReference cfg pool value = some { reference with kind } ∧
      (reference.kind = kind ∨ reference.kind = .addressEscape) := by
  rw [collectSlotReferences_eq collected] at found
  split at found
  next attached =>
    refine ⟨attached, ?_⟩
    simp only [localReference] at found
    split at found
    · cases found
    next named =>
      split at found
      · cases found
      · split at found <;> cases found
        · exact ⟨_, named, Or.inr rfl⟩
        · exact ⟨_, named, Or.inl rfl⟩
  · cases found

end References

/-- The markers of a run are the references of these kinds rooted at it. -/
theorem markerOf_eq_iff (pool : TypePool) {root : Nat} {value : CfgValue} {opens : Bool} :
    markerOf cfg root value = some opens ↔
      ∃ span, dataReference cfg pool value =
        some { base := root, span, kind := if opens then .live else .dead } := by
  simp only [markerOf, dataReference]
  split
  next slot localTy data =>
    rw [data]
    simp only [Option.some.injEq, SlotReference.mk.injEq]
    by_cases same : slot = root <;> cases opens <;> simp [same]
  next slot localTy data =>
    rw [data]
    simp only [Option.some.injEq, SlotReference.mk.injEq]
    by_cases same : slot = root <;> cases opens <;> simp [same]
  next noLive noDead =>
    constructor
    · intro impossible
      cases impossible
    · rintro ⟨span, found⟩
      split at found
      next data => exact absurd data (noLive _ _)
      next data => exact absurd data (noDead _ _)
      all_goals first | (cases opens <;> cases found) | skip
      all_goals (split at found <;> cases opens <;> cases found)

section Dataflow

variable {cfg : Cfg} {pool : TypePool} {refs : SlotReferences} {entities : List SlotEntity}

/-- A solution of the may-be-live equations on the reachable blocks. -/
def Solves (cfg : Cfg) (entities : List SlotEntity) (refs : SlotReferences) (reachable : List BlockId)
    (liveIn : BlockId → Finset Nat) : Prop :=
  ∀ block ∈ reachable, ∀ target ∈ cfg.succs block, target ∈ reachable → block < cfg.blockCount →
    target < cfg.blockCount → transferBlock cfg entities refs block (liveIn block) ⊆ liveIn target

/-- What a block's equations say of the sets a round ends with. -/
def BlockSolved (cfg : Cfg) (entities : List SlotEntity) (refs : SlotReferences) (reachable : List BlockId)
    (sets : LiveSets) (block : BlockId) : Prop :=
  block ∈ reachable →
    (∀ pred ∈ cfg.preds block, pred ∈ reachable → sets.liveOut pred ⊆ sets.liveIn block) ∧
      sets.liveOut block = transferBlock cfg entities refs block (sets.liveIn block)

theorem liveOut_subset_foldl {reachable : List BlockId} {liveOut : BlockId → Finset Nat} {preds : List BlockId}
    {start : Finset Nat} :
    start ⊆ preds.foldl (fun state pred => if pred ∈ reachable then state ∪ liveOut pred else state) start ∧
      ∀ pred ∈ preds, pred ∈ reachable →
        liveOut pred ⊆ preds.foldl (fun state pred => if pred ∈ reachable then state ∪ liveOut pred else state) start := by
  induction preds generalizing start with
  | nil => exact ⟨Finset.Subset.refl _, by simp⟩
  | cons pred rest ih =>
    simp only [List.foldl_cons]
    obtain ⟨kept, covers⟩ := @ih (if pred ∈ reachable then start ∪ liveOut pred else start)
    refine ⟨?_, ?_⟩
    · refine Finset.Subset.trans ?_ kept
      split
      · exact Finset.subset_union_left
      · exact Finset.Subset.refl _
    · intro other member known
      rcases List.mem_cons.mp member with rfl | member
      · refine Finset.Subset.trans ?_ kept
        rw [if_pos known]
        exact Finset.subset_union_right
      · exact covers other member known

/-- A visit that reports no change has changed nothing and found its block solved. -/
theorem solveBlock_unchanged {reachable : List BlockId} {sets : LiveSets} {block : BlockId}
    (quiet : (solveBlock cfg entities refs reachable sets block).changed = false) :
    solveBlock cfg entities refs reachable sets block = sets ∧
      BlockSolved cfg entities refs reachable sets block := by
  simp only [solveBlock] at quiet ⊢
  split at quiet
  next known =>
    simp only [Bool.or_eq_false_iff, decide_eq_false_iff_not, not_not] at quiet
    obtain ⟨⟨same, entered⟩, left⟩ := quiet
    rw [if_pos known]
    refine ⟨?_, ?_⟩
    · rw [left, entered, Function.update_eq_self, Function.update_eq_self]
      cases sets
      cases same
      simp
    · intro _
      rw [← entered]
      exact ⟨liveOut_subset_foldl.2, left ▸ rfl⟩
  next unknown =>
    rw [if_neg unknown]
    exact ⟨rfl, fun known => absurd known unknown⟩

theorem changed_foldl_solveBlock {reachable : List BlockId} {blocks : List BlockId} {sets : LiveSets}
    (changed : sets.changed = true) :
    (blocks.foldl (solveBlock cfg entities refs reachable) sets).changed = true := by
  induction blocks generalizing sets with
  | nil => exact changed
  | cons block rest ih =>
    apply ih
    simp only [solveBlock]
    split
    · simp [changed]
    · exact changed

/-- A round that reports no change has found every block solved. -/
theorem round_unchanged {reachable : List BlockId} {blocks : List BlockId} {sets : LiveSets}
    (quiet : (blocks.foldl (solveBlock cfg entities refs reachable) sets).changed = false) :
    blocks.foldl (solveBlock cfg entities refs reachable) sets = sets ∧
      ∀ block ∈ blocks, BlockSolved cfg entities refs reachable sets block := by
  induction blocks generalizing sets with
  | nil => exact ⟨rfl, by simp⟩
  | cons block rest ih =>
    simp only [List.foldl_cons] at quiet ⊢
    cases first : (solveBlock cfg entities refs reachable sets block).changed with
    | true =>
      rw [changed_foldl_solveBlock first] at quiet
      cases quiet
    | false =>
      obtain ⟨same, solved⟩ := solveBlock_unchanged first
      rw [same] at quiet ⊢
      obtain ⟨kept, all⟩ := ih quiet
      refine ⟨kept, ?_⟩
      intro other member
      rcases List.mem_cons.mp member with rfl | member
      · exact solved
      · exact all other member

theorem solveMayBeLive_solves {reachable : List BlockId} {rounds : Nat} {sets : LiveSets}
    {liveIn : BlockId → Finset Nat}
    (solved : solveMayBeLive cfg entities refs reachable rounds sets = some liveIn) :
    Solves cfg entities refs reachable liveIn := by
  induction rounds generalizing sets with
  | zero => cases solved
  | succ rounds ih =>
    simp only [solveMayBeLive] at solved
    split at solved
    · exact ih solved
    next quiet =>
      cases solved
      obtain ⟨same, all⟩ := round_unchanged (by simpa using quiet)
      rw [same]
      intro block known target edge reached inside within
      obtain ⟨_, left⟩ := all block (List.mem_range.mpr inside) known
      obtain ⟨entered, _⟩ := all target (List.mem_range.mpr within) reached
      rw [← left]
      exact entered block (Cfg.mem_preds.mpr ⟨inside, edge⟩) known

/-- An entity no reference hands to a raw-pointer intrinsic. -/
def Unescaped (cfg : Cfg) (refs : SlotReferences) (root : Nat) : Prop :=
  ∀ reference ∈ cfg.attached.filterMap refs, reference.base = root → reference.kind ≠ .addressEscape

/-- A marker's effect on the window of a run is its effect in the dataflow. -/
theorem transferValue_contains {numLocals slot : Nat} {facts : Nat → RootFacts}
    (collected : collectSlotReferences cfg pool = some refs) (tiling : Tiling numLocals facts slot entities)
    {index : Nat} {entity : SlotEntity} (known : entities[index]? = some entity) (local' : entity.base < cfg.numLocals)
    (unescaped : Unescaped cfg refs entity.base) {value : CfgValue} (attached : value ∈ cfg.attached)
    {executed : List CfgValue} {state : Finset Nat}
    (covered : windowOpen cfg entity.base executed = true → index ∈ state)
    (isOpen : windowOpen cfg entity.base (executed ++ [value]) = true) :
    index ∈ transferValue entities refs state value := by
  rw [windowOpen_append] at isOpen
  have here := tiling.entityAtBase_eq known
  cases marker : markerOf cfg entity.base value with
  | some opens =>
    rw [marker] at isOpen
    cases isOpen
    obtain ⟨span, named⟩ := (markerOf_eq_iff pool).mp marker
    obtain ⟨kind, found, same⟩ := collected_of_dataReference collected attached named local'
    have live : kind = .live := by
      rcases same with ⟨same, _⟩ | ⟨escape, _⟩
      · exact same
      · exact absurd escape (unescaped _ (mem_listed attached found) rfl)
    simp only [transferValue, found, here, live]
    exact Finset.mem_insert_self _ _
  | none =>
    rw [marker] at isOpen
    have inside := covered isOpen
    simp only [transferValue]
    split
    · exact inside
    next reference found =>
      split
      · exact inside
      next other rooted =>
        split
        · exact Finset.mem_insert_of_mem inside
        next dead =>
          apply Finset.mem_erase.mpr
          refine ⟨?_, inside⟩
          rintro rfl
          obtain ⟨owner, same, base⟩ := base_of_entityAtBase rooted
          cases known.symm.trans same
          obtain ⟨_, kind, named, kept⟩ := attached_of_collected collected found
          have closes : markerOf cfg entity.base value = some false := by
            rw [markerOf_eq_iff pool]
            refine ⟨reference.span, ?_⟩
            rw [named, base]
            rcases kept with same | escape
            · rw [← same, dead]
              rfl
            · rw [dead] at escape
              cases escape
          rw [marker] at closes
          cases closes
        all_goals exact inside

end Dataflow

/-- Along every path the sets of the dataflow contain the windows that are open. -/
theorem open_mem_state {cfg : Cfg} {pool : TypePool} {refs : SlotReferences} {entities : List SlotEntity}
    {liveIn : BlockId → Finset Nat} {facts : Nat → RootFacts} (bounds : cfg.InBounds)
    (collected : collectSlotReferences cfg pool = some refs) (tiling : Tiling cfg.numLocals facts 0 entities)
    (solves : Solves cfg entities refs (reachableBlocks cfg) liveIn) {executed rest : List CfgValue} {block : BlockId}
    (reached : cfg.Reaches executed block rest) :
    block ∈ reachableBlocks cfg ∧ ∃ before, (cfg.block block).insts = before ++ rest ∧
      ∀ index entity, entities[index]? = some entity → Unescaped cfg refs entity.base →
        windowOpen cfg entity.base executed = true →
          index ∈ before.foldl (transferValue entities refs) (liveIn block) := by
  have marked {node : BlockId} : node ∈ reachableBlocks cfg ↔
      Lib.Reachable (fun source target => target ∈ cfg.succs source) cfg.entry node := by
    rw [reachableBlocks, if_pos bounds.entry]
    exact Lib.mem_markOnPush bounds.targets bounds.entry
  induction reached with
  | start =>
    refine ⟨marked.mpr .start, [], rfl, ?_⟩
    intro index entity _ _ isOpen
    cases isOpen
  | @step executed rest block value reached ih =>
    obtain ⟨known, before, split, covered⟩ := ih
    refine ⟨known, before ++ [value], by simp [split], ?_⟩
    intro index entity found unescaped isOpen
    obtain ⟨_, rooted⟩ := tiling.rooted entity (List.mem_of_getElem? found)
    have inside := rooted.inside
    have wide := rooted.nonempty
    rw [List.foldl_append]
    exact transferValue_contains collected tiling found (by omega) unescaped (reached.attached bounds)
      (covered index entity found unescaped) isOpen
  | @jump executed block target reached taken ih =>
    obtain ⟨known, before, split, covered⟩ := ih
    have onward : target ∈ reachableBlocks cfg := marked.mpr ((marked.mp known).step taken)
    have inside := reached.inBounds bounds
    refine ⟨onward, [], rfl, ?_⟩
    intro index entity found unescaped isOpen
    apply solves block known target taken onward inside (bounds.targets block inside target taken)
    rw [List.append_nil] at split
    rw [transferBlock, split]
    exact covered index entity found unescaped isOpen

section Audit

variable {cfg : Cfg} {refs : SlotReferences} {entities : List SlotEntity}

/-- Every two entities of the set are known to interfere. -/
def Recorded (audit : Audit) (state : Finset Nat) : Prop :=
  ∀ first ∈ state, ∀ second ∈ state, second ∈ audit.interference first

def Grows (audit later : Audit) : Prop := ∀ entity, audit.interference entity ⊆ later.interference entity

theorem Grows.refl {audit : Audit} : Grows audit audit := fun _ => Finset.Subset.refl _

theorem Grows.trans {first second third : Audit} (early : Grows first second) (late : Grows second third) :
    Grows first third :=
  fun entity => (early entity).trans (late entity)

theorem Recorded.grow {audit later : Audit} {state : Finset Nat} (recorded : Recorded audit state)
    (grows : Grows audit later) : Recorded later state :=
  fun first member second other => grows first (recorded first member second other)

theorem recordSimultaneous_grows {audit : Audit} {state : Finset Nat} : Grows audit (recordSimultaneous state audit) := by
  intro entity
  simp only [recordSimultaneous]
  split
  · exact Finset.subset_union_left
  · exact Finset.Subset.refl _

theorem recordSimultaneous_recorded {audit : Audit} {state : Finset Nat} :
    Recorded (recordSimultaneous state audit) state := by
  intro first member second other
  simp only [recordSimultaneous, if_pos member]
  exact Finset.mem_union_right _ other

/-- The audit walks the dataflow's states and records each of them. -/
theorem auditValue_spec (entities : List SlotEntity) (refs : SlotReferences) {state : Finset Nat} {audit : Audit} (recorded : Recorded audit state) (value : CfgValue) :
    (auditValue entities refs (state, audit) value).1 = transferValue entities refs state value ∧
      Grows audit (auditValue entities refs (state, audit) value).2 ∧
      Recorded (auditValue entities refs (state, audit) value).2 (transferValue entities refs state value) := by
  simp only [auditValue, transferValue]
  split
  · exact ⟨rfl, Grows.refl, recorded⟩
  · split
    · exact ⟨rfl, Grows.refl, recorded⟩
    · split
      · exact ⟨rfl, recordSimultaneous_grows, recordSimultaneous_recorded⟩
      · exact ⟨rfl, recordSimultaneous_grows, recordSimultaneous_recorded⟩
      all_goals
        refine ⟨rfl, ?_, ?_⟩
        · split
          · exact Grows.refl
          · exact fun _ => Finset.Subset.refl _
        · split
          · exact recorded
          · exact recorded

theorem foldl_auditValue_spec (insts : List CfgValue) {state : Finset Nat} {audit : Audit}
    (recorded : Recorded audit state) :
    Grows audit (insts.foldl (auditValue entities refs) (state, audit)).2 ∧
      ∀ before rest, insts = before ++ rest → Recorded (insts.foldl (auditValue entities refs) (state, audit)).2
        (before.foldl (transferValue entities refs) state) := by
  induction insts generalizing state audit with
  | nil =>
    refine ⟨Grows.refl, ?_⟩
    intro before rest split
    rw [(List.append_eq_nil_iff.mp split.symm).1]
    exact recorded
  | cons value insts ih =>
    obtain ⟨same, grows, after⟩ := auditValue_spec entities refs recorded value
    rw [← same] at after
    obtain ⟨later, all⟩ := ih after
    refine ⟨grows.trans later, ?_⟩
    intro before rest split
    cases before with
    | nil => exact recorded.grow (grows.trans later)
    | cons first before =>
      obtain ⟨rfl, tail⟩ := List.cons.inj split
      simp only [List.foldl_cons, ← same]
      exact all before rest tail

theorem foldl_auditBlock_spec {reachable : List BlockId} {liveIn : BlockId → Finset Nat} {blocks : List BlockId}
    {audit : Audit} :
    Grows audit (blocks.foldl (auditBlock cfg entities refs reachable liveIn) audit) ∧
      ∀ block ∈ blocks, block ∈ reachable → ∀ before rest, (cfg.block block).insts = before ++ rest →
        Recorded (blocks.foldl (auditBlock cfg entities refs reachable liveIn) audit)
          (before.foldl (transferValue entities refs) (liveIn block)) := by
  induction blocks generalizing audit with
  | nil => exact ⟨Grows.refl, by simp⟩
  | cons block blocks ih =>
    simp only [List.foldl_cons]
    obtain ⟨later, all⟩ := @ih (auditBlock cfg entities refs reachable liveIn audit block)
    have first := @foldl_auditValue_spec refs entities (cfg.block block).insts (liveIn block)
      (recordSimultaneous (liveIn block) audit) recordSimultaneous_recorded
    refine ⟨Grows.trans ?_ later, ?_⟩
    · simp only [auditBlock]
      split
      · exact recordSimultaneous_grows.trans first.1
      · exact Grows.refl
    · intro other member known before rest split
      rcases List.mem_cons.mp member with rfl | member
      · refine Recorded.grow ?_ later
        simp only [auditBlock, if_pos known]
        exact first.2 before rest split
      · exact all other member known before rest split

/-- Two windows open together on some path belong to entities that interfere. -/
theorem interference_of_open {pool : TypePool} {liveIn : BlockId → Finset Nat} {facts : Nat → RootFacts}
    (bounds : cfg.InBounds) (collected : collectSlotReferences cfg pool = some refs)
    (tiling : Tiling cfg.numLocals facts 0 entities) (solves : Solves cfg entities refs (reachableBlocks cfg) liveIn)
    {executed rest : List CfgValue} {block : BlockId} (reached : cfg.Reaches executed block rest)
    {first second : Nat} {one other : SlotEntity} (known : entities[first]? = some one)
    (found : entities[second]? = some other) (different : first ≠ second) (oneKept : Unescaped cfg refs one.base)
    (otherKept : Unescaped cfg refs other.base) (oneOpen : windowOpen cfg one.base executed = true)
    (otherOpen : windowOpen cfg other.base executed = true) :
    second ∈ (auditAndCollectInterference cfg entities refs (reachableBlocks cfg) liveIn).interference first := by
  obtain ⟨inside, before, split, covered⟩ := open_mem_state bounds collected tiling solves reached
  simp only [auditAndCollectInterference]
  apply Finset.mem_erase.mpr
  refine ⟨different.symm, ?_⟩
  exact foldl_auditBlock_spec.2 block (List.mem_range.mpr (reached.inBounds bounds)) inside before rest split
    first (covered first one known oneKept oneOpen) second (covered second other found otherKept otherOpen)

end Audit

end Rue.Proofs.LocalStorage
